import BootableRecovery.Lib.CString

/-!
# `recovery.c`: the script of commands

`run_script_file` reads the lines of an OpenRecoveryScript with `fgets`, splits each at its
first space, and dispatches on the command. The buffers have a fixed size, and what the line
ends with is guessed from its last byte.

Main results:
* `splitLine_eq`: how a line that does not begin with a space is split.
* `exec_iff`: a command is executed without a fault unless a value is missing or a folder
  name is a lone carriage return or too long.
* `run_script_iff`: the commands are dispatched line by line if and only if every line up to
  the first that fails is plain and its value fits.
-/

namespace BootableRecovery.OpenRecoveryScript

def SCRIPT_COMMAND_SIZE : Nat := 512

def PATH_MAX : Nat := 4096

/-- The values are looked up in lists of names. -/
theorem lawfulBEq_bytes : LawfulBEq Bytes := inferInstance

attribute [local instance] lawfulBEq_bytes

/-! ## Commands -/

/-- What `restore` restores. -/
structure Options where
  system : Bool
  data : Bool
  cache : Bool
  boot : Bool
  sdext : Bool
  deriving DecidableEq, Repr

def Options.none : Options := ⟨false, false, false, false, false⟩

/-- What a command does. -/
inductive Action where
  | install_zip (path : Bytes)
  | erase_cache
  | erase_dalvik_cache
  | wipe_data
  | nandroid_backup (path : Bytes)
  | nandroid_restore (path : Bytes) (options : Options)
  | ensure_path_mounted (path : Bytes)
  | ensure_path_unmounted (path : Bytes)
  | ensure_directory (path : Bytes)
  | system (command : Bytes)
  | reboot
  | skip
  | error
  deriving DecidableEq, Repr

/-- What the commands depend on: whether `orswipeprompt` is 1, what is answered and what is
installed at the `n`-th command, and the paths that a backup can go to. -/
structure Env where
  ors_no_confirm : Bool
  confirm_selection : Nat → Bool
  install_zip : Nat → Bool
  backup_path : Bytes
  timestamp_path : Bytes

inductive Command where
  | install
  | wipe
  | backup
  | restore
  | mount
  | unmount
  | set
  | mkdir
  | reboot
  | cmd
  | unrecognized
  deriving DecidableEq, Repr

/-- The comparisons with the names of the commands. -/
def commandOf (command : Bytes) : Command :=
  if command = ascii "install" then .install
  else if command = ascii "wipe" then .wipe
  else if command = ascii "backup" then .backup
  else if command = ascii "restore" then .restore
  else if command = ascii "mount" then .mount
  else if command = ascii "unmount" ∨ command = ascii "umount" then .unmount
  else if command = ascii "set" then .set
  else if command = ascii "mkdir" then .mkdir
  else if command = ascii "reboot" then .reboot
  else if command = ascii "cmd" then .cmd
  else .unrecognized

/-! ## The code -/

/-- A string that is stored in a buffer of `size` bytes. -/
def store (size : Nat) (s : Bytes) : Outcome Bytes :=
  if s.length < size then .done s else .fault

/-- `strncpy` to a buffer of zeros. It writes `n` bytes, and a negative `n` is a huge one. -/
def strncpy (s : Bytes) (n : Int) : Outcome Bytes :=
  if 0 ≤ n ∧ n < SCRIPT_COMMAND_SIZE then .done (s.take n.toNat) else .fault

/-- The index of the first space, and 0 without one. -/
def cindex (script_line : Bytes) : Nat :=
  if 32 ∈ script_line then script_line.idxOf 32 else 0

/-- The command, the value, and whether there is one (`cindex != 0`). An empty string has no
last byte. -/
def splitLine (script_line : Bytes) : Outcome (Bytes × Bytes × Bool) :=
  match script_line.getLast? with
  | none => .fault
  | some c => do
    let line_len : Int := script_line.length
    let cindex : Nat := cindex script_line
    let remove_nl : Int := if c = 10 then 2 else 1
    if cindex ≠ 0 then
      let command ← strncpy script_line cindex
      let value ← strncpy (script_line.drop (cindex + 1)) (line_len - cindex - remove_nl)
      .done (command, value, true)
    else
      let command ← strncpy script_line (line_len - remove_nl + 1)
      .done (command, [], false)

def installPath (value : Bytes) : Outcome Bytes :=
  if value.head? ≠ some 47 then store SCRIPT_COMMAND_SIZE (ascii "/sdcard/" ++ value)
  else .done value

def mountPath (value : Bytes) : Outcome Bytes :=
  if value.head? ≠ some 47 then store SCRIPT_COMMAND_SIZE (ascii "/" ++ value)
  else store SCRIPT_COMMAND_SIZE value

def cacheNames : List Bytes := [ascii "cache", ascii "/cache"]

def dalvikNames : List Bytes :=
  [ascii "dalvik", ascii "dalvick", ascii "dalvikcache", ascii "dalvickcache"]

def dataNames : List Bytes :=
  [ascii "data", ascii "/data", ascii "factory", ascii "factoryreset"]

/-- The path of a backup. A token that is missing is copied from a null pointer. The second
token is copied again without what looks like its end, which leaves it as it is. -/
def backupPath (env : Env) (value : Bytes) : Outcome Bytes :=
  match strtok [32] value with
  | none => .fault
  | some (tok, rest) => do
    let _value1 ← store SCRIPT_COMMAND_SIZE tok
    match strtok [32] rest with
    | none => .done env.timestamp_path
    | some (tok, _) => do
      let value2 ← store SCRIPT_COMMAND_SIZE tok
      let remove_nl : Int :=
        if value2.getLast? = some 10 ∨ value2.getLast? = some 13 then 2 else 0
      let _copy ← strncpy tok (value2.length - remove_nl)
      store PATH_MAX (env.backup_path ++ value2)

/-- A letter of the options. -/
def setOption (options : Options) (c : UInt8) : Options :=
  if c = 83 ∨ c = 115 then { options with system := true }
  else if c = 68 ∨ c = 100 then { options with data := true }
  else if c = 67 ∨ c = 99 then { options with cache := true }
  else if c = 66 ∨ c = 98 then { options with boot := true }
  else if c = 69 ∨ c = 101 then { options with sdext := true }
  else options

/-- The path and the options of `restore`. Without options those of the last `restore` stay. -/
def restoreOptions (options : Options) (value : Bytes) : Outcome (Bytes × Options) :=
  match strtok [32] value with
  | none => .fault
  | some (tok, rest) => do
    let value1 ← store SCRIPT_COMMAND_SIZE tok
    match strtok [32] rest with
    | none => .done (value1, options)
    | some (tok, _) => do
      let value2 ← store SCRIPT_COMMAND_SIZE tok
      .done (value1, value2.foldl setOption .none)

/-- The `n`-th command: what it does, `ret_val`, and the options. -/
def exec (env : Env) (n : Nat) (options : Options) (command value : Bytes) (given : Bool) :
    Outcome (Action × Nat × Options) :=
  match commandOf command with
  | .install => do
    let path ← installPath value
    .done (.install_zip path, if env.install_zip n then 0 else 1, options)
  | .wipe =>
    if value ∈ cacheNames then .done (.erase_cache, 0, options)
    else if value ∈ dalvikNames then .done (.erase_dalvik_cache, 0, options)
    else if value ∈ dataNames then
      if env.ors_no_confirm || env.confirm_selection n then .done (.wipe_data, 0, options)
      else .done (.skip, 0, options)
    else .done (.error, 1, options)
  | .backup => do
    let path ← backupPath env value
    .done (.nandroid_backup path, 0, options)
  | .restore => do
    let (path, options) ← restoreOptions options value
    .done (.nandroid_restore path options, 0, options)
  | .mount => do
    let path ← mountPath value
    .done (.ensure_path_mounted path, 0, options)
  | .unmount => do
    let path ← mountPath value
    .done (.ensure_path_unmounted path, 0, options)
  | .set => .done (.skip, 0, options)
  | .mkdir => .done (.ensure_directory value, 0, options)
  | .reboot => .done (.reboot, 0, options)
  | .cmd => if given then .done (.system value, 0, options) else .done (.error, 0, options)
  | .unrecognized => .done (.error, 1, options)

/-- A line that was dispatched. -/
structure Dispatch where
  line : Bytes
  command : Bytes
  value : Bytes
  action : Action
  deriving DecidableEq, Repr

/-- The loop over the lines, up to the first that fails or reboots. -/
def lineLoop (split : Bytes → Outcome (Bytes × Bytes × Bool)) (env : Env) :
    Nat → Options → List Bytes → Outcome (List Dispatch × Nat)
  | _, _, [] => .done ([], 0)
  | n, options, line :: lines => do
    let (command, value, given) ← split line
    let (action, ret_val, options) ← exec env n options command value given
    if ret_val ≠ 0 ∨ action = .reboot then .done ([⟨line, command, value, action⟩], ret_val)
    else
      let (dispatches, ret_val) ← lineLoop split env (n + 1) options lines
      .done (⟨line, command, value, action⟩ :: dispatches, ret_val)

/-- The string that `fgets` stored is split. -/
def splitChunk (chunk : Bytes) : Outcome (Bytes × Bytes × Bool) := splitLine (cstr chunk)

/-- `run_script_file` on a file that can be opened. -/
def run_script_file (env : Env) (file : Bytes) : Outcome (List Dispatch × Nat) :=
  lineLoop splitChunk env 0 .none (fgetsAll SCRIPT_COMMAND_SIZE file)

/-! ## The lines of a script -/

/-- The lines of a file, each with its terminator. -/
def textLines : Bytes → List Bytes
  | [] => []
  | c :: s =>
    if c = 10 then [10] :: textLines s
    else
      match textLines s with
      | [] => [[c]]
      | line :: lines => (c :: line) :: lines

/-- A line that ends with CR and LF. -/
def CRLF (line : Bytes) : Prop := line.getLast? = some 10 ∧ line.dropLast.getLast? = some 13

instance (line : Bytes) : Decidable (CRLF line) := inferInstanceAs (Decidable (_ ∧ _))

/-- A line without its LF. -/
def stripLF (line : Bytes) : Bytes := if line.getLast? = some 10 then line.dropLast else line

/-- A line without its LF or CRLF. -/
def stripTerminator (line : Bytes) : Bytes :=
  if CRLF line then (stripLF line).dropLast else stripLF line

/-- What is in front of the first space, what is behind it, and whether there is one. -/
def splitSpace (s : Bytes) : Bytes × Bytes × Bool :=
  (s.takeWhile (· ≠ 32), (s.dropWhile (· ≠ 32)).tail, decide (32 ∈ s))

/-- A line is split as a script means it. -/
def splitText (line : Bytes) : Outcome (Bytes × Bytes × Bool) :=
  .done (splitSpace (stripTerminator line))

/-- What a script asks for: one command a line. -/
def specification (env : Env) (file : Bytes) : Outcome (List Dispatch × Nat) :=
  lineLoop splitText env 0 .none (textLines file)

/-! ## How a line is split -/

/-- The LF at the end of a line, if there is one. -/
def lineEnd (line : Bytes) : Bytes := if line.getLast? = some 10 then [10] else []

theorem stripLF_append (line : Bytes) : stripLF line ++ lineEnd line = line := by
  unfold stripLF lineEnd
  split
  · rename_i h
    obtain ⟨front, rfl⟩ := List.getLast?_eq_some_iff.mp h
    simp
  · exact List.append_nil line

theorem length_lineEnd (line : Bytes) :
    ((lineEnd line).length : Int) = if line.getLast? = some 10 then 1 else 0 := by
  unfold lineEnd
  split <;> rfl

theorem space_mem_stripLF (line : Bytes) : 32 ∈ line ↔ 32 ∈ stripLF line := by
  have hend : 32 ∉ lineEnd line := by
    unfold lineEnd
    split <;> decide
  conv_lhs => rw [← stripLF_append line]
  rw [List.mem_append]
  exact or_iff_left hend

theorem splitSpace_of_notMem {s : Bytes} (h : 32 ∉ s) : splitSpace s = (s, [], false) := by
  have hall : ∀ c ∈ s, decide (c ≠ 32) = true := by
    intro c hc
    simp only [ne_eq, decide_not, Bool.not_eq_true', decide_eq_false_iff_not]
    rintro rfl
    exact h hc
  have hdrop : s.dropWhile (· ≠ 32) = [] := List.dropWhile_eq_nil_iff.mpr hall
  have htake : s.takeWhile (· ≠ 32) = s := List.takeWhile_eq_self_iff.mpr hall
  rw [splitSpace, hdrop, htake, decide_eq_false h, List.tail_nil]

theorem splitSpace_space {front : Bytes} (h : 32 ∉ front) (rest : Bytes) :
    splitSpace (front ++ 32 :: rest) = (front, rest, true) := by
  have hall : ∀ c ∈ front, decide (c ≠ 32) = true := by
    intro c hc
    simp only [ne_eq, decide_not, Bool.not_eq_true', decide_eq_false_iff_not]
    rintro rfl
    exact h hc
  unfold splitSpace
  rw [List.takeWhile_append_of_pos hall, List.dropWhile_append_of_pos hall]
  simp

/-- The command and the value have all the bytes but the space. -/
theorem length_splitSpace (s : Bytes) :
    (splitSpace s).1.length + (splitSpace s).2.1.length + (if 32 ∈ s then 1 else 0) = s.length := by
  by_cases h : 32 ∈ s
  · obtain ⟨front, rest, rfl, hfront⟩ := List.eq_append_cons_of_mem h
    rw [splitSpace_space hfront, if_pos h, List.length_append, List.length_cons]
    exact Nat.add_assoc _ _ _
  · rw [splitSpace_of_notMem h, if_neg h]
    rfl

theorem mem_splitSpace {s : Bytes} {c : UInt8} (hc : c ∈ s) (hne : c ≠ 32) :
    c ∈ (splitSpace s).1 ∨ c ∈ (splitSpace s).2.1 := by
  by_cases h : 32 ∈ s
  · obtain ⟨front, rest, rfl, hfront⟩ := List.eq_append_cons_of_mem h
    rw [splitSpace_space hfront]
    rcases List.mem_append.mp hc with hc | hc
    · exact .inl hc
    · exact .inr ((List.mem_cons.mp hc).resolve_left hne)
  · rw [splitSpace_of_notMem h]
    exact .inl hc

theorem strncpy_of_le {s : Bytes} {n : Nat} (h : n < SCRIPT_COMMAND_SIZE) :
    strncpy s n = .done (s.take n) :=
  if_pos ⟨Int.natCast_nonneg n, Int.ofNat_lt.mpr h⟩

/-- A line whose index of a space is 0 is taken for a command without a value. -/
theorem splitLine_of_cindex_zero {line : Bytes} (hne : line ≠ [])
    (hlt : line.length < SCRIPT_COMMAND_SIZE) (h : cindex line = 0) :
    splitLine line = .done (stripLF line, [], false) := by
  have hlast := List.getLast?_eq_some_getLast hne
  have hlen := congrArg List.length (stripLF_append line)
  rw [List.length_append] at hlen
  have hend := length_lineEnd line
  have hn : (line.length : Int) - (if line.getLast hne = 10 then 2 else 1) + 1 =
      (stripLF line).length := by
    rw [hlast] at hend
    simp only [Option.some.injEq] at hend
    split at hend <;> rename_i hcase <;> simp only [hcase, if_true, if_false] <;> omega
  have htake : line.take (stripLF line).length = stripLF line :=
    (List.prefix_iff_eq_take.mp ⟨lineEnd line, stripLF_append line⟩).symm
  unfold splitLine
  simp only [hlast, h, ne_eq, not_true_eq_false, if_false, hn]
  rw [strncpy_of_le (by omega), htake]
  rfl

/-- A line with a space that is not in front is split there. -/
theorem splitLine_of_space {line front rest : Bytes} (hlt : line.length < SCRIPT_COMMAND_SIZE)
    (hsplit : stripLF line = front ++ 32 :: rest) (hfront : 32 ∉ front) (hne : front ≠ []) :
    splitLine line = .done (front, rest, true) := by
  have hline : line = front ++ 32 :: (rest ++ lineEnd line) := by
    conv_lhs => rw [← stripLF_append line, hsplit]
    simp
  have hnonempty : line ≠ [] := by
    rw [hline]
    simp
  have hlast := List.getLast?_eq_some_getLast hnonempty
  have hindex : cindex line = front.length := by
    unfold cindex
    rw [if_pos (by rw [hline]; simp), hline, List.idxOf_append_of_notMem hfront,
      List.idxOf_cons_self, Nat.add_zero]
  have hlen := congrArg List.length hline
  rw [List.length_append, List.length_cons, List.length_append] at hlen
  have hend := length_lineEnd line
  have hn : (line.length : Int) - front.length - (if line.getLast hnonempty = 10 then 2 else 1) =
      rest.length := by
    rw [hlast] at hend
    simp only [Option.some.injEq] at hend
    split at hend <;> rename_i hcase <;> simp only [hcase, if_true, if_false] <;> omega
  have hcommand : line.take front.length = front := by
    rw [hline]
    exact List.take_left
  have hvalue : (line.drop (front.length + 1)).take rest.length = rest := by
    rw [hline, List.drop_append, List.drop_of_length_le (Nat.le_succ _)]
    simp
  unfold splitLine
  simp only [hlast, hindex, hn, ne_eq, List.length_eq_zero_iff, hne, not_false_eq_true, if_true]
  rw [strncpy_of_le (by omega), strncpy_of_le (by omega), hcommand, hvalue]
  rfl

/-- A line that does not begin with a space is split at the first one, without its LF. -/
theorem splitLine_eq {line : Bytes} (hne : line ≠ []) (hlt : line.length < SCRIPT_COMMAND_SIZE)
    (hhead : line.head? ≠ some 32) : splitLine line = .done (splitSpace (stripLF line)) := by
  by_cases hspace : 32 ∈ line
  · obtain ⟨front, rest, hsplit, hfront⟩ :=
      List.eq_append_cons_of_mem ((space_mem_stripLF line).mp hspace)
    have hfne : front ≠ [] := by
      rintro rfl
      apply hhead
      rw [← stripLF_append line, hsplit]
      rfl
    rw [splitLine_of_space hlt hsplit hfront hfne, hsplit, splitSpace_space hfront]
  · have hindex : cindex line = 0 := if_neg hspace
    rw [splitLine_of_cindex_zero hne hlt hindex,
      splitSpace_of_notMem (mt (space_mem_stripLF line).mpr hspace)]

/-- A line that begins with a space is taken for a command as a whole. -/
theorem splitLine_of_head {line : Bytes} (hlt : line.length < SCRIPT_COMMAND_SIZE)
    (hhead : line.head? = some 32) : splitLine line = .done (stripLF line, [], false) := by
  obtain ⟨s, rfl⟩ := List.head?_eq_some_iff.mp hhead
  refine splitLine_of_cindex_zero (List.cons_ne_nil _ _) hlt ?_
  unfold cindex
  rw [if_pos List.mem_cons_self, List.idxOf_cons_self]

/-- What a line is split into was in it. -/
theorem mem_of_splitLine {line command value : Bytes} {given : Bool}
    (h : splitLine line = .done (command, value, given)) {c : UInt8}
    (hc : c ∈ command ∨ c ∈ value) : c ∈ line := by
  have hcopy : ∀ (s : Bytes) (n : Int) (t : Bytes), strncpy s n = .done t → ∀ x ∈ t, x ∈ s := by
    intro s n t ht x hx
    unfold strncpy at ht
    split at ht
    · obtain rfl := Outcome.done.inj ht
      exact List.mem_of_mem_take hx
    · exact absurd ht nofun
  unfold splitLine at h
  split at h
  · exact absurd h nofun
  · simp only at h
    split at h
    · obtain ⟨t, ht, h⟩ := Outcome.bind_eq_done.mp h
      obtain ⟨u, hu, h⟩ := Outcome.bind_eq_done.mp h
      obtain ⟨rfl, rfl, -⟩ : t = command ∧ u = value ∧ true = given := by
        simpa using Outcome.done.inj h
      rcases hc with hc | hc
      · exact hcopy _ _ _ ht c hc
      · exact List.mem_of_mem_drop (hcopy _ _ _ hu c hc)
    · obtain ⟨t, ht, h⟩ := Outcome.bind_eq_done.mp h
      obtain ⟨rfl, rfl, -⟩ : t = command ∧ [] = value ∧ false = given := by
        simpa using Outcome.done.inj h
      rcases hc with hc | hc
      · exact hcopy _ _ _ ht c hc
      · exact absurd hc List.not_mem_nil

/-! ## What a command needs -/

/-- The value has what the command dereferences, and its copies fit: a first token for `backup`
and `restore`; a second token of `backup` is no lone CR or LF, and the path ends in time. -/
def Fits (env : Env) (command value : Bytes) : Prop :=
  match commandOf command with
  | .backup => ∃ tok rest, strtok [32] value = some (tok, rest) ∧
      ∀ tok' rest', strtok [32] rest = some (tok', rest') →
        tok' ≠ [10] ∧ tok' ≠ [13] ∧ (env.backup_path ++ tok').length < PATH_MAX
  | .restore => strtok [32] value ≠ none
  | _ => True

/-- The command fails or reboots, so that it is the last one. -/
def Stops (env : Env) (n : Nat) (command value : Bytes) : Prop :=
  match commandOf command with
  | .install => env.install_zip n = false
  | .wipe => value ∉ cacheNames ∧ value ∉ dalvikNames ∧ value ∉ dataNames
  | .reboot => True
  | .unrecognized => True
  | _ => False

instance (env : Env) (n : Nat) (command value : Bytes) : Decidable (Stops env n command value) := by
  unfold Stops
  split <;> infer_instance

theorem store_eq_done {size : Nat} {s t : Bytes} :
    store size s = .done t ↔ s.length < size ∧ s = t := by
  unfold store
  split
  · simp [*]
  · simp [*]

theorem commandOf_install {command : Bytes} (h : commandOf command = .install) :
    command.length = 7 := by
  unfold commandOf at h
  split at h
  · rename_i hname
    rw [hname]
    decide
  · split_ifs at h

theorem installPath_done {value : Bytes} (h : value.length + 8 < SCRIPT_COMMAND_SIZE) :
    ∃ path, installPath value = .done path := by
  have hfront : (ascii "/sdcard/").length = 8 := by decide
  unfold installPath
  split
  · refine ⟨_, store_eq_done.mpr ⟨?_, rfl⟩⟩
    rw [List.length_append, hfront]
    omega
  · exact ⟨value, rfl⟩

theorem mountPath_done {value : Bytes} (h : value.length + 1 < SCRIPT_COMMAND_SIZE) :
    ∃ path, mountPath value = .done path := by
  have hfront : (ascii "/").length = 1 := by decide
  unfold mountPath
  split
  · refine ⟨_, store_eq_done.mpr ⟨?_, rfl⟩⟩
    rw [List.length_append, hfront]
    omega
  · exact ⟨_, store_eq_done.mpr ⟨by omega, rfl⟩⟩

/-- The second copy of a token is a fault only if the token is a lone CR or LF. -/
theorem copy_done_iff {tok : Bytes} (hne : tok ≠ []) (hlt : tok.length < SCRIPT_COMMAND_SIZE) :
    (∃ copy, strncpy tok (tok.length -
      (if tok.getLast? = some 10 ∨ tok.getLast? = some 13 then 2 else 0)) = .done copy) ↔
      tok ≠ [10] ∧ tok ≠ [13] := by
  have hpos : 0 < tok.length := List.length_pos_iff.mpr hne
  have hcopy : ∀ n : Int, n < SCRIPT_COMMAND_SIZE → ((∃ copy, strncpy tok n = .done copy) ↔ 0 ≤ n) := by
    intro n hn
    unfold strncpy
    by_cases h : 0 ≤ n
    · simp [h, hn]
    · simp [h]
  rw [hcopy _ (by split <;> omega)]
  split
  · rename_i hlast
    constructor
    · intro hlen
      refine ⟨?_, ?_⟩ <;> rintro rfl <;> exact absurd hlen (by decide)
    · rintro ⟨h10, h13⟩
      by_contra hlen
      obtain ⟨c, rfl⟩ : ∃ c, tok = [c] := List.length_eq_one_iff.mp (by omega)
      simp only [List.getLast?_singleton, Option.some.injEq] at hlast
      rcases hlast with rfl | rfl
      · exact h10 rfl
      · exact h13 rfl
  · rename_i hlast
    refine iff_of_true (by omega) ⟨?_, ?_⟩ <;> rintro rfl <;> exact hlast (by decide)

theorem backupPath_iff (env : Env) {value : Bytes} (h : value.length < SCRIPT_COMMAND_SIZE) :
    (∃ path, backupPath env value = .done path) ↔
      ∃ tok rest, strtok [32] value = some (tok, rest) ∧
        ∀ tok' rest', strtok [32] rest = some (tok', rest') →
          tok' ≠ [10] ∧ tok' ≠ [13] ∧ (env.backup_path ++ tok').length < PATH_MAX := by
  unfold backupPath
  cases htok : strtok [32] value with
  | none => simp
  | some first =>
    obtain ⟨tok, rest⟩ := first
    have hlen := strtok_rest_length_lt htok
    have hfirst : store SCRIPT_COMMAND_SIZE tok = .done tok :=
      store_eq_done.mpr ⟨by omega, rfl⟩
    simp only [hfirst, Outcome.done_bind]
    cases htok' : strtok [32] rest with
    | none => simp [htok']
    | some second =>
      obtain ⟨tok', rest'⟩ := second
      have hlen' := strtok_rest_length_lt htok'
      have hsecond : store SCRIPT_COMMAND_SIZE tok' = .done tok' :=
        store_eq_done.mpr ⟨by omega, rfl⟩
      have hcopy := copy_done_iff (List.length_pos_iff.mp hlen'.2) (by omega)
      have hneeds : (∃ t r, some (tok, rest) = some (t, r) ∧ ∀ t' r', strtok [32] r = some (t', r') →
          t' ≠ [10] ∧ t' ≠ [13] ∧ (env.backup_path ++ t').length < PATH_MAX) ↔
          (tok' ≠ [10] ∧ tok' ≠ [13]) ∧ (env.backup_path ++ tok').length < PATH_MAX := by
        constructor
        · rintro ⟨t, r, heq, hall⟩
          obtain ⟨rfl, rfl⟩ := Prod.mk.inj (Option.some.inj heq)
          obtain ⟨h10, h13, hpath⟩ := hall tok' rest' htok'
          exact ⟨⟨h10, h13⟩, hpath⟩
        · rintro ⟨⟨h10, h13⟩, hpath⟩
          refine ⟨tok, rest, rfl, fun t' r' heq => ?_⟩
          rw [htok'] at heq
          obtain ⟨rfl, rfl⟩ := Prod.mk.inj (Option.some.inj heq)
          exact ⟨h10, h13, hpath⟩
      rw [hneeds, ← hcopy]
      simp only [hsecond, Outcome.done_bind]
      constructor
      · rintro ⟨path, hpath⟩
        obtain ⟨copy, hdone, hstore⟩ := Outcome.bind_eq_done.mp hpath
        exact ⟨⟨copy, hdone⟩, (store_eq_done.mp hstore).1⟩
      · rintro ⟨⟨copy, hdone⟩, hpath⟩
        exact ⟨_, Outcome.bind_eq_done.mpr ⟨copy, hdone, store_eq_done.mpr ⟨hpath, rfl⟩⟩⟩

theorem restoreOptions_iff (options : Options) {value : Bytes}
    (h : value.length < SCRIPT_COMMAND_SIZE) :
    (∃ r, restoreOptions options value = .done r) ↔ strtok [32] value ≠ none := by
  unfold restoreOptions
  cases htok : strtok [32] value with
  | none => simp
  | some first =>
    obtain ⟨tok, rest⟩ := first
    have hlen := strtok_rest_length_lt htok
    have hfirst : store SCRIPT_COMMAND_SIZE tok = .done tok :=
      store_eq_done.mpr ⟨by omega, rfl⟩
    simp only [hfirst, Outcome.done_bind]
    cases htok' : strtok [32] rest with
    | none => simp
    | some second =>
      obtain ⟨tok', rest'⟩ := second
      have hlen' := strtok_rest_length_lt htok'
      have hsecond : store SCRIPT_COMMAND_SIZE tok' = .done tok' :=
        store_eq_done.mpr ⟨by omega, rfl⟩
      simp [hsecond]

/-- A command whose line fits in the buffers is executed if and only if its value fits. -/
theorem exec_iff (env : Env) (n : Nat) (options : Options) {command value : Bytes} (given : Bool)
    (hroom : value = [] ∨ command.length + 1 + value.length < SCRIPT_COMMAND_SIZE) :
    (∃ r, exec env n options command value given = .done r) ↔ Fits env command value := by
  have hlen : value.length + 1 < SCRIPT_COMMAND_SIZE := by
    rcases hroom with rfl | hroom
    · decide
    · omega
  unfold exec Fits
  cases hcommand : commandOf command with
  | install =>
    have hname := commandOf_install hcommand
    obtain ⟨path, hpath⟩ := installPath_done (show value.length + 8 < SCRIPT_COMMAND_SIZE by
      rcases hroom with rfl | hroom
      · decide
      · omega)
    simp [hpath]
  | wipe =>
    simp only [iff_true]
    split_ifs <;> exact ⟨_, rfl⟩
  | backup =>
    refine Iff.trans ?_ (backupPath_iff env (Nat.lt_of_succ_lt hlen))
    constructor
    · rintro ⟨r, hr⟩
      obtain ⟨path, hpath, -⟩ := Outcome.bind_eq_done.mp hr
      exact ⟨path, hpath⟩
    · rintro ⟨path, hpath⟩
      exact ⟨_, Outcome.bind_eq_done.mpr ⟨path, hpath, rfl⟩⟩
  | restore =>
    refine Iff.trans ?_ (restoreOptions_iff options (Nat.lt_of_succ_lt hlen))
    constructor
    · rintro ⟨r, hr⟩
      obtain ⟨path, hpath, -⟩ := Outcome.bind_eq_done.mp hr
      exact ⟨path, hpath⟩
    · rintro ⟨path, hpath⟩
      exact ⟨_, Outcome.bind_eq_done.mpr ⟨path, hpath, rfl⟩⟩
  | mount =>
    obtain ⟨path, hpath⟩ := mountPath_done hlen
    simp [hpath]
  | unmount =>
    obtain ⟨path, hpath⟩ := mountPath_done hlen
    simp [hpath]
  | set => simp
  | mkdir => simp
  | reboot => simp
  | cmd => cases given <;> simp
  | unrecognized => simp

/-- When the loop ends. -/
theorem stops_iff {env : Env} {n ret_val : Nat} {options options' : Options}
    {command value : Bytes} {given : Bool} {action : Action}
    (h : exec env n options command value given = .done (action, ret_val, options')) :
    ret_val ≠ 0 ∨ action = .reboot ↔ Stops env n command value := by
  unfold exec at h
  unfold Stops
  cases hcommand : commandOf command <;> rw [hcommand] at h <;> simp only at h ⊢
  case install =>
    obtain ⟨path, -, h⟩ := Outcome.bind_eq_done.mp h
    obtain ⟨rfl, rfl, -⟩ := by simpa using Outcome.done.inj h
    simp
  case wipe =>
    split_ifs at h <;> obtain ⟨rfl, rfl, -⟩ := by simpa using Outcome.done.inj h
    all_goals simp [*]
  case backup =>
    obtain ⟨path, -, h⟩ := Outcome.bind_eq_done.mp h
    obtain ⟨rfl, rfl, -⟩ := by simpa using Outcome.done.inj h
    simp
  case restore =>
    obtain ⟨path, -, h⟩ := Outcome.bind_eq_done.mp h
    obtain ⟨rfl, rfl, -⟩ := by simpa using Outcome.done.inj h
    simp
  case mount =>
    obtain ⟨path, -, h⟩ := Outcome.bind_eq_done.mp h
    obtain ⟨rfl, rfl, -⟩ := by simpa using Outcome.done.inj h
    simp
  case unmount =>
    obtain ⟨path, -, h⟩ := Outcome.bind_eq_done.mp h
    obtain ⟨rfl, rfl, -⟩ := by simpa using Outcome.done.inj h
    simp
  case cmd =>
    split_ifs at h <;> obtain ⟨rfl, rfl, -⟩ := by simpa using Outcome.done.inj h
    all_goals simp
  all_goals
    obtain ⟨rfl, rfl, -⟩ := by simpa using Outcome.done.inj h
    simp

/-! ## The lines that are dispatched -/

/-- A line that `fgets` reads as a whole and that is split as it should be. -/
structure Plain (line : Bytes) : Prop where
  fits : line.length < SCRIPT_COMMAND_SIZE
  text : 0 ∉ line
  lf : ¬ CRLF line
  word : line.head? ≠ some 32

/-- The line is plain and the value fits the command. -/
def Good (env : Env) (line : Bytes) : Prop :=
  Plain line ∧
    Fits env (splitSpace (stripTerminator line)).1 (splitSpace (stripTerminator line)).2.1

/-- The lines up to the first whose command is the last one. -/
def dispatched (env : Env) : Nat → List Bytes → List Bytes
  | _, [] => []
  | n, line :: lines =>
    line ::
      if Stops env n (splitSpace (stripTerminator line)).1 (splitSpace (stripTerminator line)).2.1
      then [] else dispatched env (n + 1) lines

/-- The script runs without a fault, and what is dispatched is what it asks for. -/
def RunsAsSpecified (env : Env) (file : Bytes) : Prop :=
  ∃ r, run_script_file env file = .done r ∧ specification env file = .done r

/-- A line that fits in a smaller buffer is read into it as well. -/
theorem takeLine_of_length_le {n m : Nat} {s : Bytes} (h : (takeLine m s).1.length ≤ n)
    (hnm : n ≤ m) : takeLine n s = takeLine m s := by
  induction s generalizing n m with
  | nil => cases n <;> cases m <;> rfl
  | cons c s ih =>
    cases m with
    | zero =>
      obtain rfl : n = 0 := Nat.le_zero.mp hnm
      rfl
    | succ m =>
      simp only [takeLine] at h ⊢
      split at h
      · rename_i hc
        cases n with
        | zero => exact absurd h (by simp)
        | succ n => simp only [takeLine, if_pos hc]
      · rename_i hc
        cases n with
        | zero => exact absurd h (by simp)
        | succ n =>
          have hrest : takeLine n s = takeLine m s :=
            ih (Nat.le_of_succ_le_succ h) (Nat.le_of_succ_le_succ hnm)
          simp only [takeLine, if_neg hc, hrest]

/-- The first line of a file, and the lines behind it. -/
theorem textLines_eq {file : Bytes} (h : file ≠ []) :
    textLines file =
      (takeLine file.length file).1 :: textLines (takeLine file.length file).2 := by
  induction file with
  | nil => exact absurd rfl h
  | cons c s ih =>
    simp only [List.length_cons, takeLine, textLines]
    split
    · rename_i hc
      rw [hc]
    · by_cases hs : s = []
      · subst hs
        rfl
      · rw [ih hs]

theorem lineLoop_cons_iff {split : Bytes → Outcome (Bytes × Bytes × Bool)} {env : Env} {n : Nat}
    {options : Options} {line : Bytes} {lines : List Bytes} {r : List Dispatch × Nat} :
    lineLoop split env n options (line :: lines) = .done r ↔
      ∃ command value given action ret_val options',
        split line = .done (command, value, given) ∧
        exec env n options command value given = .done (action, ret_val, options') ∧
        ((Stops env n command value ∧ r = ([⟨line, command, value, action⟩], ret_val)) ∨
          (¬ Stops env n command value ∧ ∃ r', lineLoop split env (n + 1) options' lines = .done r' ∧
            r = (⟨line, command, value, action⟩ :: r'.1, r'.2))) := by
  constructor
  · intro h
    obtain ⟨⟨command, value, given⟩, hsplit, h⟩ := Outcome.bind_eq_done.mp h
    obtain ⟨⟨action, ret_val, options'⟩, hexec, h⟩ := Outcome.bind_eq_done.mp h
    refine ⟨command, value, given, action, ret_val, options', hsplit, hexec, ?_⟩
    rw [← stops_iff hexec]
    simp only at h
    split at h
    · rename_i hstop
      exact .inl ⟨hstop, (Outcome.done.inj h).symm⟩
    · rename_i hstop
      obtain ⟨r', hrest, h⟩ := Outcome.bind_eq_done.mp h
      exact .inr ⟨hstop, r', hrest, (Outcome.done.inj h).symm⟩
  · rintro ⟨command, value, given, action, ret_val, options', hsplit, hexec, hend⟩
    simp only [lineLoop, hsplit, hexec, Outcome.done_bind]
    rw [← stops_iff hexec] at hend
    rcases hend with ⟨hstop, rfl⟩ | ⟨hstop, r', hrest, rfl⟩
    · exact if_pos hstop
    · rw [if_neg hstop, hrest]
      rfl

theorem splitSpace_room (line : Bytes) (hlt : line.length < SCRIPT_COMMAND_SIZE) :
    (splitSpace (stripTerminator line)).2.1 = [] ∨
      (splitSpace (stripTerminator line)).1.length + 1 +
        (splitSpace (stripTerminator line)).2.1.length < SCRIPT_COMMAND_SIZE := by
  have hstrip : (stripTerminator line).length ≤ line.length := by
    have hlf := congrArg List.length (stripLF_append line)
    rw [List.length_append] at hlf
    unfold stripTerminator
    split
    · rw [List.length_dropLast]
      omega
    · omega
  by_cases hspace : 32 ∈ stripTerminator line
  · have hlen := length_splitSpace (stripTerminator line)
    rw [if_pos hspace] at hlen
    omega
  · rw [splitSpace_of_notMem hspace]
    exact .inl rfl

/-- A plain line is split as specified. -/
theorem Plain.splitLine {line : Bytes} (h : Plain line) (hne : line ≠ []) :
    splitLine (cstr line) = .done (splitSpace (stripTerminator line)) := by
  rw [cstr_of_zero_notMem h.text, splitLine_eq hne h.fits h.word, stripTerminator, if_neg h.lf]

/-- Only a plain line is split as specified. -/
theorem plain_of_splitLine {line command value : Bytes} {given given' : Bool} (hne : line ≠ [])
    (hlt : line.length < SCRIPT_COMMAND_SIZE)
    (hsplit : splitLine (cstr line) = .done (command, value, given))
    (hspec : splitSpace (stripTerminator line) = (command, value, given')) : Plain line := by
  have hzero : 0 ∉ line := by
    intro hzero
    have hlf : 0 ∈ stripLF line := by
      rw [← stripLF_append line, List.mem_append] at hzero
      refine hzero.resolve_right ?_
      unfold lineEnd
      split <;> decide
    have hstrip : 0 ∈ stripTerminator line := by
      unfold stripTerminator
      split
      · rename_i hcrlf
        have hlast : (stripLF line).getLast? = some 13 := by
          rw [stripLF, if_pos hcrlf.1]
          exact hcrlf.2
        obtain ⟨front, hfront⟩ := List.getLast?_eq_some_iff.mp hlast
        rw [hfront, List.mem_append] at hlf
        rw [hfront, List.dropLast_concat]
        exact hlf.resolve_right (by decide)
      · exact hlf
    have hmem := mem_splitSpace hstrip (by decide)
    rw [hspec] at hmem
    exact zero_notMem_cstr line (mem_of_splitLine hsplit hmem)
  rw [cstr_of_zero_notMem hzero] at hsplit
  have hhead : line.head? ≠ some 32 := by
    intro hhead
    rw [splitLine_of_head hlt hhead] at hsplit
    obtain ⟨rfl, -⟩ := Prod.mk.inj (Outcome.done.inj hsplit)
    obtain ⟨s, rfl⟩ := List.head?_eq_some_iff.mp hhead
    have hcons : ∃ t, stripLF (32 :: s) = 32 :: t := by
      unfold stripLF
      cases s with
      | nil => exact ⟨[], rfl⟩
      | cons c s =>
        split
        · exact ⟨_, List.dropLast_cons_cons⟩
        · exact ⟨_, rfl⟩
    obtain ⟨t, ht⟩ := hcons
    have hstrip : (stripTerminator (32 :: s)).takeWhile (· ≠ 32) = [] := by
      unfold stripTerminator
      rw [ht]
      split
      · cases t with
        | nil => rfl
        | cons c t => rfl
      · rfl
    have hcommand := congrArg Prod.fst hspec
    rw [splitSpace, hstrip, ht] at hcommand
    exact absurd hcommand nofun
  refine ⟨hlt, hzero, fun hcrlf => ?_, hhead⟩
  -- the CR is still there in what the code splits
  rw [splitLine_eq hne hlt hhead] at hsplit
  have hsame : (splitSpace (stripLF line)).1.length + (splitSpace (stripLF line)).2.1.length =
      (splitSpace (stripTerminator line)).1.length +
        (splitSpace (stripTerminator line)).2.1.length := by
    rw [Outcome.done.inj hsplit, hspec]
  have hlast : (stripLF line).getLast? = some 13 := by
    rw [stripLF, if_pos hcrlf.1]
    exact hcrlf.2
  obtain ⟨front, hfront⟩ := List.getLast?_eq_some_iff.mp hlast
  have hstrip : stripTerminator line = front := by
    rw [stripTerminator, if_pos hcrlf, hfront, List.dropLast_concat]
  have hlen := length_splitSpace (stripLF line)
  have hlen' := length_splitSpace (stripTerminator line)
  have hspace : 32 ∈ front ++ [13] ↔ 32 ∈ front := by simp
  rw [hfront] at hsame hlen
  rw [hstrip] at hsame hlen'
  simp only [hspace, List.length_append, List.length_singleton] at hlen
  omega

/-- One line that `fgets` reads as a whole. -/
theorem agree_cons_iff {env : Env} {n : Nat} {options : Options} {line : Bytes}
    {chunks lines : List Bytes} (hne : line ≠ []) (hlt : line.length < SCRIPT_COMMAND_SIZE)
    (hrest : ∀ options', (∃ r, lineLoop splitChunk env (n + 1) options' chunks = .done r ∧
        lineLoop splitText env (n + 1) options' lines = .done r) ↔
      ∀ l ∈ dispatched env (n + 1) lines, Good env l) :
    (∃ r, lineLoop splitChunk env n options (line :: chunks) = .done r ∧
        lineLoop splitText env n options (line :: lines) = .done r) ↔
      ∀ l ∈ dispatched env n (line :: lines), Good env l := by
  have hroom := splitSpace_room line hlt
  generalize hspec : splitSpace (stripTerminator line) = spec at hroom
  obtain ⟨command, value, given⟩ := spec
  have hfits : ∀ options, (∃ r, exec env n options command value given = .done r) ↔
      Fits env command value := fun options => exec_iff env n options given hroom
  simp only [dispatched, List.forall_mem_cons, hspec]
  constructor
  · rintro ⟨r, hcode, htext⟩
    obtain ⟨c, v, g, action, ret_val, options₁, hsplit, hexec, hend⟩ := lineLoop_cons_iff.mp hcode
    obtain ⟨c', v', g', action', ret_val', options₂, hsplit', hexec', hend'⟩ :=
      lineLoop_cons_iff.mp htext
    obtain ⟨rfl, rfl, rfl⟩ : command = c' ∧ value = v' ∧ given = g' := by
      have := Outcome.done.inj hsplit'
      rw [hspec] at this
      simpa using this
    -- the first dispatch is the same in both runs
    obtain ⟨rfl, rfl⟩ : c = command ∧ v = value := by
      rcases hend with ⟨-, hr⟩ | ⟨-, r₁, -, hr⟩ <;> rcases hend' with ⟨-, hr'⟩ | ⟨-, r₂, -, hr'⟩ <;>
        rw [hr] at hr' <;> simp only [Prod.mk.injEq, List.cons.injEq, Dispatch.mk.injEq] at hr' <;>
        exact ⟨hr'.1.1.2.1, hr'.1.1.2.2.1⟩
    have hplain : Plain line := plain_of_splitLine hne hlt hsplit hspec
    have hgiven : g = given := by
      have heq := hsplit.symm.trans ((hplain.splitLine hne).trans (by rw [hspec]))
      simpa using heq
    subst hgiven
    rw [hexec] at hexec'
    obtain ⟨rfl, rfl, rfl⟩ : action = action' ∧ ret_val = ret_val' ∧ options₁ = options₂ := by
      simpa using hexec'
    refine ⟨⟨hplain, ?_⟩, ?_⟩
    · rw [hspec]
      exact (hfits options).mp ⟨_, hexec⟩
    · rcases hend with ⟨hstop, -⟩ | ⟨hstop, r₁, hloop, hr⟩
      · rw [if_pos hstop]
        simp
      · rcases hend' with ⟨hstop', -⟩ | ⟨-, r₂, hloop', hr'⟩
        · exact absurd hstop' hstop
        · rw [if_neg hstop]
          obtain rfl : r₁ = r₂ := by
            rw [hr] at hr'
            simp only [Prod.mk.injEq, List.cons.injEq, true_and] at hr'
            exact Prod.ext hr'.1 hr'.2
          exact (hrest options₁).mp ⟨r₁, hloop, hloop'⟩
  · rintro ⟨⟨hplain, hfit⟩, hlater⟩
    rw [hspec] at hfit
    obtain ⟨⟨action, ret_val, options₁⟩, hexec⟩ := (hfits options).mpr hfit
    have hsplit : splitChunk line = .done (command, value, given) :=
      (hplain.splitLine hne).trans (by rw [hspec])
    have hsplit' : splitText line = .done (command, value, given) := by
      rw [splitText, hspec]
    by_cases hstop : Stops env n command value
    · exact ⟨_, lineLoop_cons_iff.mpr ⟨_, _, _, _, _, _, hsplit, hexec, .inl ⟨hstop, rfl⟩⟩,
        lineLoop_cons_iff.mpr ⟨_, _, _, _, _, _, hsplit', hexec, .inl ⟨hstop, rfl⟩⟩⟩
    · rw [if_neg hstop] at hlater
      obtain ⟨r, hloop, hloop'⟩ := (hrest options₁).mpr hlater
      exact ⟨_, lineLoop_cons_iff.mpr ⟨_, _, _, _, _, _, hsplit, hexec,
          .inr ⟨hstop, r, hloop, rfl⟩⟩,
        lineLoop_cons_iff.mpr ⟨_, _, _, _, _, _, hsplit', hexec, .inr ⟨hstop, r, hloop', rfl⟩⟩⟩

/-- A line that does not fit is dispatched in pieces. -/
theorem not_agree_of_long {env : Env} {n : Nat} {options : Options} {chunk line : Bytes}
    {chunks lines : List Bytes} (hne : chunk ≠ line) :
    ¬ ∃ r, lineLoop splitChunk env n options (chunk :: chunks) = .done r ∧
      lineLoop splitText env n options (line :: lines) = .done r := by
  rintro ⟨r, hcode, htext⟩
  obtain ⟨c, v, g, action, ret_val, options₁, -, -, hend⟩ := lineLoop_cons_iff.mp hcode
  obtain ⟨c', v', g', action', ret_val', options₂, -, -, hend'⟩ := lineLoop_cons_iff.mp htext
  rcases hend with ⟨-, hr⟩ | ⟨-, r₁, -, hr⟩ <;> rcases hend' with ⟨-, hr'⟩ | ⟨-, r₂, -, hr'⟩ <;>
    rw [hr] at hr' <;> simp only [Prod.mk.injEq, List.cons.injEq, Dispatch.mk.injEq] at hr' <;>
    exact hne hr'.1.1.1

/-- The loop over what `fgets` reads does what the loop over the lines of the file asks for if
and only if every line that is dispatched is good. -/
theorem agree_iff (env : Env) (m : Nat) : ∀ (file : Bytes) (n : Nat) (options : Options),
    file.length ≤ m →
    ((∃ r, lineLoop splitChunk env n options (fgetsAll SCRIPT_COMMAND_SIZE file) = .done r ∧
        lineLoop splitText env n options (textLines file) = .done r) ↔
      ∀ line ∈ dispatched env n (textLines file), Good env line) := by
  induction m with
  | zero =>
    intro file n options hm
    obtain rfl : file = [] := List.eq_nil_of_length_eq_zero (Nat.le_zero.mp hm)
    exact iff_of_true ⟨_, rfl, rfl⟩ nofun
  | succ m ih =>
    intro file n options hm
    by_cases hfile : file = []
    · subst hfile
      exact iff_of_true ⟨_, rfl, rfl⟩ nofun
    have hpos : 0 < file.length := List.length_pos_iff.mpr hfile
    have hshort := takeLine_rest_length_lt hpos hfile
    have happend := congrArg List.length (takeLine_append file.length file)
    rw [List.length_append] at happend
    rw [fgetsAll_of_ne (show 1 < SCRIPT_COMMAND_SIZE by decide) hfile, textLines_eq hfile]
    by_cases hlt : (takeLine file.length file).1.length < SCRIPT_COMMAND_SIZE
    · have hchunk : takeLine (SCRIPT_COMMAND_SIZE - 1) file = takeLine file.length file := by
        rcases Nat.le_total (SCRIPT_COMMAND_SIZE - 1) file.length with hle | hle
        · exact takeLine_of_length_le (Nat.le_sub_one_of_lt hlt) hle
        · have hall := congrArg List.length (takeLine_append (SCRIPT_COMMAND_SIZE - 1) file)
          rw [List.length_append] at hall
          exact (takeLine_of_length_le (by omega) hle).symm
      rw [hchunk]
      refine agree_cons_iff ?_ hlt fun options' => ih _ _ _ (by omega)
      exact List.ne_nil_of_length_pos (by omega)
    · refine iff_of_false (not_agree_of_long fun heq => ?_) fun hall => ?_
      · rw [← heq] at hlt
        exact hlt (Nat.lt_of_le_of_lt (takeLine_length_le _ _) (by decide))
      · exact hlt (hall _ List.mem_cons_self).1.fits

/-- The script is dispatched line by line if and only if every line up to the last one that is
dispatched is plain and its value fits. -/
theorem run_script_iff (env : Env) (file : Bytes) :
    RunsAsSpecified env file ↔ ∀ line ∈ dispatched env 0 (textLines file), Good env line :=
  agree_iff env file.length file 0 .none le_rfl

/-- A device on which everything succeeds. -/
def willing : Env where
  ors_no_confirm := true
  confirm_selection _ := true
  install_zip _ := true
  backup_path := ascii "/sdcard/cotrecovery/backup/"
  timestamp_path := ascii "/sdcard/cotrecovery/backup/1970-01-01.00.00.00"

/-- With a CR in front of the LF the wipe fails, since the CR is a part of the value. -/
theorem run_script_crlf : ¬ RunsAsSpecified willing (ascii "wipe cache\r\n") := by
  rintro ⟨r, hrun, hspec⟩
  have hcode : run_script_file willing (ascii "wipe cache\r\n") =
      .done ([⟨ascii "wipe cache\r\n", ascii "wipe", ascii "cache\r", .error⟩], 1) := by
    decide
  have htext : specification willing (ascii "wipe cache\r\n") =
      .done ([⟨ascii "wipe cache\r\n", ascii "wipe", ascii "cache", .erase_cache⟩], 0) := by
    decide
  rw [hcode] at hrun
  rw [htext, ← hrun] at hspec
  exact absurd hspec (by decide)

end BootableRecovery.OpenRecoveryScript
