import BootableRecovery.Iniparse

/-!
# `settingshandler.c`: the settings file

The settings are read from `cotrecovery/settings.ini` on one of two cards by a handler that
stores the value of each key that occurs in it, and they are written as a whole. The record
that the handler fills is not initialised.

Main results:
* `get_parsed`: a setting has the last value that the file gives it, and else none.
* `settings_defined_iff`: after `parse_settings` every setting is what the file says or a
  default, if and only if a file that is found has all the keys, one that is not found can be
  created, and without a card the calibration was set before.
* `settings_round_trip_iff`: `update_cot_settings` and `parse_settings` leave every setting as
  it is, if and only if the file can be opened for writing.
-/

namespace BootableRecovery.Settings

open Iniparse

/-! ## The handler -/

/-- The settings. A field is `none` while it was never assigned. -/
structure settings where
  theme : Option Bytes
  is_sd_theme : Option Int
  orsreboot : Option Int
  orswipeprompt : Option Int
  backupprompt : Option Int
  signaturecheckenabled : Option Int
  backupfmt : Option Int
  ts_x : Option Int
  ts_y : Option Int
  ts_touchY : Option Int
  language : Option Bytes
  deriving DecidableEq, Repr

/-- A record on the stack. -/
def settings.unset : settings :=
  ⟨none, none, none, none, none, none, none, none, none, none, none⟩

def tolower (c : UInt8) : UInt8 := if 65 ≤ c ∧ c ≤ 90 then c + 32 else c

/-- `strcasecmp(a, b) == 0`. -/
def strcaseeq (a b : Bytes) : Bool := a.map tolower == b.map tolower

def MATCH (sect name : Bytes) (s n : String) : Bool :=
  strcaseeq sect (ascii s) && strcaseeq name (ascii n)

/-- `atoi`, which is `strtol` with a `long` of 32 bits. -/
def number (value : Bytes) : Int := clampLong 32 (atoi value)

def settings_handler : Handler settings := fun config sect name value =>
  if MATCH sect name "settings" "theme" then
    (true, { config with theme := some value })
  else if MATCH sect name "settings" "sdtheme" then
    (true, { config with is_sd_theme := some (number value) })
  else if MATCH sect name "settings" "orsreboot" then
    (true, { config with orsreboot := some (number value) })
  else if MATCH sect name "settings" "orswipeprompt" then
    (true, { config with orswipeprompt := some (number value) })
  else if MATCH sect name "settings" "backupprompt" then
    (true, { config with backupprompt := some (number value) })
  else if MATCH sect name "settings" "signaturecheckenabled" then
    (true, { config with signaturecheckenabled := some (number value) })
  else if MATCH sect name "settings" "backupformat" then
    (true, { config with backupfmt := some (number value) })
  else if MATCH sect name "settings" "maxX" then
    (true, { config with ts_x := some (number value) })
  else if MATCH sect name "settings" "maxY" then
    (true, { config with ts_y := some (number value) })
  else if MATCH sect name "settings" "touchY" then
    (true, { config with ts_touchY := some (number value) })
  else if MATCH sect name "settings" "language" then
    (true, { config with language := some value })
  else (false, config)

/-! ## The state -/

inductive Card where
  | sdcard
  | emmc
  deriving DecidableEq, Repr

/-- A device: whether `OTHER_SD_CARD` is `EMMC`, which of the attempts to mount a card
succeed, and on which cards the settings file can be opened for writing. -/
structure Device where
  isEmmc : Bool
  mounts : Nat → Bool
  writable : Card → Bool

variable (d : Device)

/-- `COTSETTINGS` is set to the second card only if there is one. -/
abbrev SettingsCard : Type := {c : Card // c = .emmc → d.isEmmc = true}

/-- The cards that are mounted, the number of attempts to mount one, the settings files, and
the variables of the program. -/
structure State where
  mounted : Card → Bool
  attempts : Nat
  files : Card → Option Bytes
  COTSETTINGS : SettingsCard d
  globals : settings
  fallback_settings : Bool
  first_boot : Bool

variable {d}

def ensure_path_mounted (c : Card) (s : State d) : Bool × State d :=
  if s.mounted c then (true, s)
  else if d.mounts s.attempts then
    (true, { s with
      mounted := fun c' => c' = c || s.mounted c'
      attempts := s.attempts + 1 })
  else (false, { s with attempts := s.attempts + 1 })

/-- The settings file that `fopen` opens for reading. -/
def State.settingsFile (s : State d) : Option Bytes :=
  if s.mounted s.COTSETTINGS.1 then s.files s.COTSETTINGS.1 else none

/-- The settings file with new contents. -/
def State.write (s : State d) (text : Bytes) : State d :=
  { s with files := fun c => if c = s.COTSETTINGS.1 then some text else s.files c }

/-- `fopen_path(COTSETTINGS, "r")`. -/
def fopen_read (s : State d) : Bool × State d :=
  let s := (ensure_path_mounted s.COTSETTINGS.1 s).2
  (s.settingsFile.isSome, s)

/-- `fopen_path(COTSETTINGS, "w")`. The file is empty after it. -/
def fopen_write (s : State d) : Bool × State d :=
  let (ok, s) := ensure_path_mounted s.COTSETTINGS.1 s
  if ok && d.writable s.COTSETTINGS.1 then (true, s.write []) else (false, s)

/-! ## The code -/

/-- What `create_default_settings` writes. -/
def default_settings_text : Bytes :=
  ascii (";\n" ++
    "; COT Settings INI\n" ++
    ";\n" ++
    "\n" ++
    "[Settings]\n" ++
    "Theme = hydro ;\n" ++
    "SDTheme = 0;\n" ++
    "ORSReboot = 0 ;\n" ++
    "ORSWipePrompt = 1 ;\n" ++
    "BackupPrompt = 1 ;\n" ++
    "SignatureCheckEnabled = 0 ;\n" ++
    "BackupFormat = 0 ;\n" ++
    "maxX = 0 ;\n" ++
    "maxY = 0 ;\n" ++
    "touchY = 0 ;\n" ++
    "Language = en ;\n" ++
    "\n")

/-- A file that can be read is not replaced: `fclose` is called with the path instead of the
stream. The stream for writing is not checked. -/
def create_default_settings (s : State d) : Outcome (State d) :=
  match fopen_read s with
  | (true, _) => .fault
  | (false, s) =>
    match fopen_write s with
    | (false, _) => .fault
    | (true, s) => .done { s.write default_settings_text with first_boot := true }

def load_fallback_settings (s : State d) : State d :=
  { s with
    fallback_settings := true
    globals := { s.globals with
      theme := some (ascii "hydro")
      is_sd_theme := some 0
      language := some (ascii "en")
      signaturecheckenabled := some 1
      backupfmt := some 0
      backupprompt := some 1
      orswipeprompt := some 1
      orsreboot := some 0 } }

/-- The paths of the theme and of the language are built in arrays of this size. -/
def PATH_SIZE : Nat := 1000

/-- `parse_language` as far as it reads the settings. -/
def parse_language (s : State d) : Outcome (State d) :=
  let s := (ensure_path_mounted .sdcard s).2
  match s.globals.language with
  | none => .fault
  | some language =>
    if language = ascii "en" then .done s
    else
      let full_lang_file := ascii "/sdcard/cotrecovery/lang/lang_" ++ language ++ ascii ".ini"
      if full_lang_file.length < PATH_SIZE then .done s else .fault

/-- `handle_theme` as far as it reads the settings. -/
def handle_theme (s : State d) : Outcome (State d) :=
  match s.globals.theme with
  | none => .fault
  | some theme_name =>
    let theme_base :=
      if s.globals.is_sd_theme = some 1 then ascii "/sdcard/cotrecovery/theme/"
      else ascii "/res/theme/"
    let full_theme_file := theme_base ++ theme_name ++ ascii "/theme.ini"
    if full_theme_file.length < PATH_SIZE then .done s else .fault

/-- `parse_settings` once the settings are assigned. -/
def useSettings (s : State d) : Outcome (State d) := do
  let s ← parse_language s
  handle_theme s

/-- `parse_settings` from the second call of `ini_parse` on. -/
def loadFile (config : settings) (s : State d) : Outcome (State d) := do
  let (error, config) := ini_parse settings_handler config s.settingsFile
  let (s, config) ← (if error < 0 then do
      let s ← create_default_settings s
      .done (s, (ini_parse settings_handler config s.settingsFile).2)
    else .done (s, config) : Outcome (State d × settings))
  useSettings { s with globals := config }

def parse_settings (s : State d) : Outcome (State d) :=
  let config := settings.unset
  let (sdcard, s) := ensure_path_mounted .sdcard s
  if h : d.isEmmc = true then
    if sdcard then
      let (error, config) := ini_parse settings_handler config s.settingsFile
      if error < 0 then loadFile config { s with COTSETTINGS := ⟨.emmc, fun _ => h⟩ }
      else loadFile config s
    else
      let s := (ensure_path_mounted .emmc s).2
      loadFile config { s with COTSETTINGS := ⟨.emmc, fun _ => h⟩ }
  else if sdcard then loadFile config s
  else useSettings (load_fallback_settings s)

/-- A line of the text that is written. -/
def setting (key : String) (value : Bytes) (punctuation : String) : Bytes :=
  ascii key ++ (ascii " = " ++ (value ++ ascii punctuation))

/-- What `update_cot_settings` writes. It reads all the settings. -/
def settings_text (c : settings) : Option Bytes := do
  let currenttheme ← c.theme
  let is_sd_theme ← c.is_sd_theme
  let orsreboot ← c.orsreboot
  let orswipeprompt ← c.orswipeprompt
  let backupprompt ← c.backupprompt
  let signature_check_enabled ← c.signaturecheckenabled
  let backupfmt ← c.backupfmt
  let maxX ← c.ts_x
  let maxY ← c.ts_y
  let touchY ← c.ts_touchY
  let language ← c.language
  some (List.flatten [
    ascii ";\n; COT Settings INI\n;\n\n[Settings]\n",
    setting "Theme" currenttheme " ;\n",
    setting "SDTheme" (printInt is_sd_theme) ";\n",
    setting "ORSReboot" (printInt orsreboot) " ;\n",
    setting "ORSWipePrompt" (printInt orswipeprompt) " ;\n",
    setting "BackupPrompt" (printInt backupprompt) " ;\n",
    setting "SignatureCheckEnabled" (printInt signature_check_enabled) " ;\n",
    setting "BackupFormat" (printInt backupfmt) " ;\n",
    setting "maxX" (printInt maxX) " ;\n",
    setting "maxY" (printInt maxY) " ;\n",
    setting "touchY" (printInt touchY) " ;\n",
    setting "Language" language " ;\n",
    ascii "\n"])

/-- The stream for writing is not checked. -/
def update_cot_settings (s : State d) : Outcome (State d) :=
  match fopen_write s with
  | (false, _) => .fault
  | (true, s) =>
    match settings_text s.globals with
    | none => .fault
    | some text => parse_settings (s.write text)

/-! ## Keys and values -/

inductive Key where
  | theme
  | sdtheme
  | orsreboot
  | orswipeprompt
  | backupprompt
  | signaturecheckenabled
  | backupformat
  | maxX
  | maxY
  | touchY
  | language
  deriving DecidableEq, Repr

inductive Value where
  | text (s : Bytes)
  | number (n : Int)
  deriving DecidableEq, Repr

/-- The setting of a key. -/
def settings.get (c : settings) : Key → Option Value
  | .theme => c.theme.map .text
  | .sdtheme => c.is_sd_theme.map .number
  | .orsreboot => c.orsreboot.map .number
  | .orswipeprompt => c.orswipeprompt.map .number
  | .backupprompt => c.backupprompt.map .number
  | .signaturecheckenabled => c.signaturecheckenabled.map .number
  | .backupformat => c.backupfmt.map .number
  | .maxX => c.ts_x.map .number
  | .maxY => c.ts_y.map .number
  | .touchY => c.ts_touchY.map .number
  | .language => c.language.map .text

/-- The value that a text stands for. -/
def Key.read : Key → Bytes → Value
  | .theme, value => .text value
  | .language, value => .text value
  | _, value => .number (Settings.number value)

/-- The key that an entry is for. -/
def keyOf (sect name : Bytes) : Option Key :=
  if MATCH sect name "settings" "theme" then some .theme
  else if MATCH sect name "settings" "sdtheme" then some .sdtheme
  else if MATCH sect name "settings" "orsreboot" then some .orsreboot
  else if MATCH sect name "settings" "orswipeprompt" then some .orswipeprompt
  else if MATCH sect name "settings" "backupprompt" then some .backupprompt
  else if MATCH sect name "settings" "signaturecheckenabled" then some .signaturecheckenabled
  else if MATCH sect name "settings" "backupformat" then some .backupformat
  else if MATCH sect name "settings" "maxX" then some .maxX
  else if MATCH sect name "settings" "maxY" then some .maxY
  else if MATCH sect name "settings" "touchY" then some .touchY
  else if MATCH sect name "settings" "language" then some .language
  else none

/-- The last value that the entries give a key. -/
def last (k : Key) (es : List Entry) : Option Value :=
  (es.reverse.find? fun e => keyOf e.sect e.name = some k).map fun e => k.read e.value

theorem settings.ext_get {c c' : settings} (h : ∀ k, c.get k = c'.get k) : c = c' := by
  have hnumber : ∀ a b : Option Int, a.map Value.number = b.map Value.number → a = b :=
    Option.map_injective fun _ _ h => Value.number.inj h
  have htext : ∀ a b : Option Bytes, a.map Value.text = b.map Value.text → a = b :=
    Option.map_injective fun _ _ h => Value.text.inj h
  cases c
  cases c'
  simp only [settings.mk.injEq]
  exact ⟨htext _ _ (h .theme), hnumber _ _ (h .sdtheme), hnumber _ _ (h .orsreboot),
    hnumber _ _ (h .orswipeprompt), hnumber _ _ (h .backupprompt),
    hnumber _ _ (h .signaturecheckenabled), hnumber _ _ (h .backupformat), hnumber _ _ (h .maxX),
    hnumber _ _ (h .maxY), hnumber _ _ (h .touchY), htext _ _ (h .language)⟩

/-- Assign the setting of a key. -/
def settings.set (c : settings) (value : Bytes) : Key → settings
  | .theme => { c with theme := some value }
  | .sdtheme => { c with is_sd_theme := some (number value) }
  | .orsreboot => { c with orsreboot := some (number value) }
  | .orswipeprompt => { c with orswipeprompt := some (number value) }
  | .backupprompt => { c with backupprompt := some (number value) }
  | .signaturecheckenabled => { c with signaturecheckenabled := some (number value) }
  | .backupformat => { c with backupfmt := some (number value) }
  | .maxX => { c with ts_x := some (number value) }
  | .maxY => { c with ts_y := some (number value) }
  | .touchY => { c with ts_touchY := some (number value) }
  | .language => { c with language := some value }

theorem settings.get_set (c : settings) (value : Bytes) (k k' : Key) :
    (c.set value k).get k' = if k = k' then some (k'.read value) else c.get k' := by
  cases k <;> cases k' <;> rfl

/-- The handler assigns the setting of the key that the entry is for, and no other. -/
theorem next_eq (c : settings) (e : Entry) :
    settings_handler.next c e =
      (keyOf e.sect e.name).elim c (settings.set c e.value) := by
  have hstore : settings_handler c e.sect e.name e.value =
      (keyOf e.sect e.name).elim (false, c) fun k => (true, c.set e.value k) := by
    unfold settings_handler keyOf
    simp only [apply_ite (Option.elim · (false, c) fun k => (true, c.set e.value k))]
    rfl
  rw [Handler.next, hstore]
  cases keyOf e.sect e.name <;> rfl

theorem get_next (c : settings) (e : Entry) (k : Key) :
    (settings_handler.next c e).get k =
      if keyOf e.sect e.name = some k then some (k.read e.value) else c.get k := by
  rw [next_eq]
  cases keyOf e.sect e.name with
  | none => rfl
  | some k' => simp [settings.get_set]

theorem get_foldl (c : settings) (es : List Entry) (k : Key) :
    (es.foldl settings_handler.next c).get k = (last k es).or (c.get k) := by
  induction es using List.reverseRecOn with
  | nil => rfl
  | append_singleton es e ih =>
    rw [List.foldl_append, List.foldl_cons, List.foldl_nil, get_next, last, List.reverse_concat,
      List.find?_cons]
    by_cases he : keyOf e.sect e.name = some k
    · simp [he]
    · simp [he, ih, last]

/-! ## The file that is read -/

/-- What the handler makes of a file. -/
def parsed (file : Bytes) : settings := (entries file).foldl settings_handler.next settings.unset

/-- A setting has the last value that the file gives it, and else none. -/
theorem get_parsed (file : Bytes) (k : Key) : (parsed file).get k = last k (entries file) := by
  have hunset : settings.unset.get k = none := by cases k <;> rfl
  rw [parsed, get_foldl, hunset, Option.or_none]

/-- A file that is read a second time changes nothing. -/
theorem foldl_parsed (file : Bytes) :
    (entries file).foldl settings_handler.next (parsed file) = parsed file :=
  settings.ext_get fun k => by rw [get_foldl, get_parsed, Option.or_self]

theorem ini_parse_some (config : settings) (file : Bytes) :
    (ini_parse settings_handler config (some file)).2 =
      (entries file).foldl settings_handler.next config :=
  ini_parse_file_user ..

/-- What an attempt to mount a card leaves as it is. -/
structure Mounts (s s' : State d) : Prop where
  mounted : ∀ c, s.mounted c = true → s'.mounted c = true
  files : s'.files = s.files
  COTSETTINGS : s'.COTSETTINGS = s.COTSETTINGS
  globals : s'.globals = s.globals

theorem Mounts.trans {s s' s'' : State d} (h : Mounts s s') (h' : Mounts s' s'') : Mounts s s'' where
  mounted c hc := h'.mounted c (h.mounted c hc)
  files := h'.files.trans h.files
  COTSETTINGS := h'.COTSETTINGS.trans h.COTSETTINGS
  globals := h'.globals.trans h.globals

theorem mounts_ensure (c : Card) (s : State d) : Mounts s (ensure_path_mounted c s).2 := by
  unfold ensure_path_mounted
  split
  · exact ⟨fun _ h => h, rfl, rfl, rfl⟩
  · split
    · exact ⟨fun _ h => by simp [h], rfl, rfl, rfl⟩
    · exact ⟨fun _ h => h, rfl, rfl, rfl⟩

theorem mounted_of_ensure {c : Card} {s : State d} (h : (ensure_path_mounted c s).1 = true) :
    (ensure_path_mounted c s).2.mounted c = true := by
  unfold ensure_path_mounted at *
  split_ifs at * with hmounted hmounts
  · exact hmounted
  · simp

theorem ensure_of_mounted {c : Card} {s : State d} (h : s.mounted c = true) :
    ensure_path_mounted c s = (true, s) := if_pos h

/-- A file that can be opened can still be opened when another card is mounted. -/
theorem Mounts.settingsFile {s s' : State d} (h : Mounts s s') {file : Bytes}
    (hfile : s.settingsFile = some file) : s'.settingsFile = some file := by
  unfold State.settingsFile at *
  split at hfile
  · rename_i hmounted
    rw [h.COTSETTINGS, h.files, if_pos (h.mounted _ hmounted), hfile]
  · exact absurd hfile (by simp)

/-- The state in which the settings file is read, with the card that it is looked for on;
`none` when no card is mounted. -/
def located (s : State d) : Option (State d) :=
  let (sdcard, s) := ensure_path_mounted .sdcard s
  if h : d.isEmmc = true then
    if sdcard = true ∧ s.settingsFile.isSome = true then some s
    else
      let s := if sdcard then s else (ensure_path_mounted .emmc s).2
      some { s with COTSETTINGS := ⟨.emmc, fun _ => h⟩ }
  else if sdcard then some s else none

theorem loadFile_some {s : State d} {file : Bytes} (h : s.settingsFile = some file)
    (config : settings) :
    loadFile config s =
      useSettings { s with globals := (entries file).foldl settings_handler.next config } := by
  have herror : ¬ (ini_parse settings_handler config (some file)).1 < 0 := by
    rw [ini_parse_neg_iff]
    simp
  rw [← ini_parse_some]
  unfold loadFile
  simp only [h, if_neg herror, Outcome.done_bind]

theorem loadFile_none {s : State d} (h : s.settingsFile = none) (config : settings) :
    loadFile config s = (do
      let s ← create_default_settings s
      useSettings { s with globals := (ini_parse settings_handler config s.settingsFile).2 }) := by
  have herror : (ini_parse settings_handler config none).1 < 0 :=
    (ini_parse_neg_iff settings_handler config none).mpr rfl
  unfold loadFile
  simp only [h, if_pos herror]
  cases create_default_settings s <;> rfl

/-- The run of `parse_settings` by what is located. -/
theorem parse_settings_eq (s : State d) :
    parse_settings s =
      match located s with
      | none => useSettings (load_fallback_settings (ensure_path_mounted .sdcard s).2)
      | some s => loadFile settings.unset s := by
  unfold parse_settings located
  obtain ⟨sdcard, s⟩ := ensure_path_mounted .sdcard s
  by_cases hemmc : d.isEmmc = true
  · cases sdcard with
    | false => simp [hemmc]
    | true =>
      cases hfile : s.settingsFile with
      | none =>
        simp [hemmc, hfile, ini_parse]
      | some file =>
        -- the second call reads the file on top of what the first one left
        have herror : ¬ (ini_parse settings_handler settings.unset (some file)).1 < 0 := by
          rw [ini_parse_neg_iff]
          simp
        have htwice : loadFile (ini_parse settings_handler settings.unset (some file)).2 s =
            loadFile settings.unset s := by
          rw [loadFile_some hfile, loadFile_some hfile, ini_parse_some]
          exact congrArg (fun c => useSettings { s with globals := c }) (foldl_parsed file)
        simp [hemmc, hfile, herror, htwice]
  · cases sdcard <;> simp [hemmc]

/-! ## The text that is written -/

/-- A value of a C `int`. -/
abbrev CInt : Type := {n : Int // -2 ^ 31 ≤ n ∧ n < 2 ^ 31}

/-- A name that the reader takes as it is, and whose line fits. -/
abbrev Name (key : String) : Type :=
  {s : Bytes // Word s ∧ (setting key s " ;\n").length < INI_MAX_LINE}

/-- Settings that are all set. -/
structure Values where
  theme : Name "Theme"
  is_sd_theme : CInt
  orsreboot : CInt
  orswipeprompt : CInt
  backupprompt : CInt
  signaturecheckenabled : CInt
  backupfmt : CInt
  ts_x : CInt
  ts_y : CInt
  ts_touchY : CInt
  language : Name "Language"

def Values.settings (v : Values) : settings where
  theme := some v.theme.1
  is_sd_theme := some v.is_sd_theme.1
  orsreboot := some v.orsreboot.1
  orswipeprompt := some v.orswipeprompt.1
  backupprompt := some v.backupprompt.1
  signaturecheckenabled := some v.signaturecheckenabled.1
  backupfmt := some v.backupfmt.1
  ts_x := some v.ts_x.1
  ts_y := some v.ts_y.1
  ts_touchY := some v.ts_touchY.1
  language := some v.language.1

/-- The number at the start of what was printed. -/
theorem number_printInt (n : CInt) {rest : Bytes} (hrest : ∀ c ∈ rest.head?, isDigit c = false) :
    number (printInt n.1 ++ rest) = n.1 := by
  obtain ⟨n, hlow, hhigh⟩ := n
  unfold number clampLong
  rw [atoi_printInt n hrest, min_eq_right (by omega), max_eq_right (by omega)]

/-- The name under which `update_cot_settings` writes a setting. -/
def Key.written : Key → Bytes
  | .theme => ascii "Theme"
  | .sdtheme => ascii "SDTheme"
  | .orsreboot => ascii "ORSReboot"
  | .orswipeprompt => ascii "ORSWipePrompt"
  | .backupprompt => ascii "BackupPrompt"
  | .signaturecheckenabled => ascii "SignatureCheckEnabled"
  | .backupformat => ascii "BackupFormat"
  | .maxX => ascii "maxX"
  | .maxY => ascii "maxY"
  | .touchY => ascii "touchY"
  | .language => ascii "Language"

def section_name : Bytes := ascii "Settings"

/-- The reader finds each setting under the name it is written with. -/
theorem keyOf_written (k : Key) : keyOf section_name k.written = some k := by
  cases k <;> decide

theorem word_written (k : Key) : Word k.written :=
  Word.of_all (by cases k <;> decide)

theorem written_plain (k : Key) : ∀ c ∈ k.written, c ≠ 61 ∧ c ≠ 59 ∧ c ≠ 35 ∧ c ≠ 91 := by
  have hall : k.written.all (fun c => c ≠ 61 ∧ c ≠ 59 ∧ c ≠ 35 ∧ c ≠ 91) = true := by
    cases k <;> decide
  exact fun c hc => of_decide_eq_true (List.all_eq_true.mp hall c hc)

/-- The line of a setting with a comment behind the value. -/
def spacedLine (k : Key) (value : Bytes) (h : Word value) : Assignment :=
  ⟨k.written, value, ascii " ;", word_written k, written_plain k, h, .inr rfl⟩

/-- The line of a number whose semicolon is a part of the value. -/
def tightLine (k : Key) (n : Int) : Assignment :=
  ⟨k.written, printInt n ++ [59], [], word_written k, written_plain k,
    (word_printInt n).append (List.forall_mem_singleton.mpr ⟨by decide, rfl⟩), .inl rfl⟩

/-- The lines of the settings. -/
def Values.lines (v : Values) : List Assignment :=
  [spacedLine .theme v.theme.1 v.theme.2.1,
    tightLine .sdtheme v.is_sd_theme.1,
    spacedLine .orsreboot (printInt v.orsreboot.1) (word_printInt _),
    spacedLine .orswipeprompt (printInt v.orswipeprompt.1) (word_printInt _),
    spacedLine .backupprompt (printInt v.backupprompt.1) (word_printInt _),
    spacedLine .signaturecheckenabled (printInt v.signaturecheckenabled.1) (word_printInt _),
    spacedLine .backupformat (printInt v.backupfmt.1) (word_printInt _),
    spacedLine .maxX (printInt v.ts_x.1) (word_printInt _),
    spacedLine .maxY (printInt v.ts_y.1) (word_printInt _),
    spacedLine .touchY (printInt v.ts_touchY.1) (word_printInt _),
    spacedLine .language v.language.1 v.language.2.1]

def headerLines : List Bytes :=
  [ascii ";\n", ascii "; COT Settings INI\n", ascii ";\n", ascii "\n", ascii "[Settings]\n"]

/-- The text is made of lines. -/
def Values.text (v : Values) : Bytes :=
  (headerLines ++ (v.lines.map Assignment.line ++ [[10]])).flatten

theorem spacedLine_line (k : Key) (key : String) (value : Bytes) (h : Word value)
    (hkey : k.written = ascii key) : setting key value " ;\n" = (spacedLine k value h).line := by
  have hend : ascii " ;\n" = ascii " ;" ++ [10] := by decide
  simp only [setting, spacedLine, Assignment.line, Assignment.body, hkey, hend, List.append_assoc]

theorem tightLine_line (k : Key) (key : String) (n : Int) (hkey : k.written = ascii key) :
    setting key (printInt n) ";\n" = (tightLine k n).line := by
  have hend : ascii ";\n" = [59] ++ [10] := by decide
  simp only [setting, tightLine, Assignment.line, Assignment.body, hkey, hend, List.append_assoc,
    List.append_nil]

theorem headerLines_flatten :
    ascii ";\n; COT Settings INI\n;\n\n[Settings]\n" = headerLines.flatten := by
  decide

/-- What `update_cot_settings` writes is made of these lines. -/
theorem settings_text_values (v : Values) : settings_text v.settings = some v.text := by
  have hspaced := fun k key value (h : Word value) (hkey : Key.written k = ascii key) =>
    spacedLine_line k key value h hkey
  have hfinal : ascii "\n" = [10] := by decide
  simp only [settings_text, Values.settings, Option.bind_eq_bind, Option.bind_some]
  rw [hspaced .theme "Theme" _ v.theme.2.1 rfl, tightLine_line .sdtheme "SDTheme" _ rfl,
    hspaced .orsreboot "ORSReboot" _ (word_printInt _) rfl,
    hspaced .orswipeprompt "ORSWipePrompt" _ (word_printInt _) rfl,
    hspaced .backupprompt "BackupPrompt" _ (word_printInt _) rfl,
    hspaced .signaturecheckenabled "SignatureCheckEnabled" _ (word_printInt _) rfl,
    hspaced .backupformat "BackupFormat" _ (word_printInt _) rfl,
    hspaced .maxX "maxX" _ (word_printInt _) rfl, hspaced .maxY "maxY" _ (word_printInt _) rfl,
    hspaced .touchY "touchY" _ (word_printInt _) rfl,
    hspaced .language "Language" _ v.language.2.1 rfl, headerLines_flatten, hfinal]
  simp only [Values.text, Values.lines, List.flatten_cons, List.flatten_append, List.map_cons,
    List.map_nil, List.flatten_nil, List.append_assoc, List.append_nil]

/-- The line of a number is short. -/
theorem length_number_line (k : Key) {value comment : Bytes} (hvalue : value.length ≤ 12)
    (hcomment : comment.length ≤ 2) :
    (k.written ++ (ascii " = " ++ (value ++ comment)) ++ [10]).length < INI_MAX_LINE := by
  have hkey : k.written.length ≤ 21 := by cases k <;> decide
  have hequals : (ascii " = ").length = 3 := by decide
  simp only [List.length_append, hequals, List.length_singleton, INI_MAX_LINE]
  omega

theorem length_printInt (n : CInt) : (printInt n.1).length ≤ 11 := by
  obtain ⟨n, hlow, hhigh⟩ := n
  exact printInt_length_le (k := 10) (by omega) (by simp only; omega)

/-- Every line fits. -/
theorem length_line_lt (v : Values) : ∀ a ∈ v.lines, a.line.length < INI_MAX_LINE := by
  have hcomment : (ascii " ;").length ≤ 2 := by decide
  have hnumber : ∀ (k : Key) (n : CInt),
      (spacedLine k (printInt n.1) (word_printInt _)).line.length < INI_MAX_LINE := fun k n =>
    length_number_line k ((length_printInt n).trans (by omega)) hcomment
  have htight : (tightLine .sdtheme v.is_sd_theme.1).line.length < INI_MAX_LINE := by
    have hvalue : (printInt v.is_sd_theme.1 ++ [59]).length ≤ 12 := by
      rw [List.length_append, List.length_singleton]
      exact Nat.succ_le_succ (length_printInt v.is_sd_theme)
    exact length_number_line .sdtheme hvalue (Nat.zero_le 2)
  have htheme : (spacedLine .theme v.theme.1 v.theme.2.1).line.length < INI_MAX_LINE := by
    rw [← spacedLine_line .theme "Theme" _ _ rfl]
    exact v.theme.2.2
  have hlanguage : (spacedLine .language v.language.1 v.language.2.1).line.length <
      INI_MAX_LINE := by
    rw [← spacedLine_line .language "Language" _ _ rfl]
    exact v.language.2.2
  simp only [Values.lines, List.forall_mem_cons, List.not_mem_nil, false_imp_iff, implies_true,
    and_true]
  exact ⟨htheme, htight, hnumber _ _, hnumber _ _, hnumber _ _, hnumber _ _, hnumber _ _,
    hnumber _ _, hnumber _ _, hnumber _ _, hlanguage⟩

/-- The reader finds the lines that were written. -/
theorem entries_text (v : Values) :
    entries v.text = v.lines.map (Assignment.entry · section_name) := by
  have hheader : ∀ l ∈ headerLines, l.length < INI_MAX_LINE ∧ 10 ∉ l.dropLast ∧
      l = l.dropLast ++ [10] := by decide
  have hlines : fgetsAll INI_MAX_LINE v.text =
      headerLines ++ (v.lines.map Assignment.line ++ [[10]]) := by
    refine fgetsAll_flatten fun l hl => ?_
    rcases List.mem_append.mp hl with hl | hl
    · exact ⟨(hheader l hl).1, l.dropLast, (hheader l hl).2⟩
    · rcases List.mem_append.mp hl with hl | hl
      · obtain ⟨a, ha, rfl⟩ := List.mem_map.mp hl
        exact ⟨length_line_lt v a ha, a.body, a.newline_notMem_body, rfl⟩
      · obtain rfl := List.mem_singleton.mp hl
        exact ⟨by decide, [], List.not_mem_nil, rfl⟩
  have hsection : ∀ lines, entriesFrom ⟨[], []⟩ 0 (headerLines ++ lines) =
      entriesFrom ⟨section_name, []⟩ 5 lines := fun _ => rfl
  rw [entries, hlines, hsection, entriesFrom_assignments _ (by decide)]

/-- The settings that are read are those that were written. -/
theorem parsed_text (v : Values) : parsed v.text = v.settings := by
  have hnext : ∀ (c : settings) (k : Key) (value : Bytes),
      settings_handler.next c ⟨section_name, k.written, value⟩ = c.set value k := by
    intro c k value
    rw [next_eq, keyOf_written]
    rfl
  have hspaced : ∀ n : CInt, number (printInt n.1) = n.1 := by
    intro n
    have hend : ∀ c ∈ ([] : Bytes).head?, isDigit c = false := nofun
    rw [← List.append_nil (printInt n.1), number_printInt n hend]
  have htight : ∀ n : CInt, number (printInt n.1 ++ [59]) = n.1 := by
    intro n
    have hend : ∀ c ∈ ([59] : Bytes).head?, isDigit c = false := by
      rintro c ⟨rfl⟩
      rfl
    exact number_printInt n hend
  rw [parsed, entries_text]
  simp only [Values.lines, List.map_cons, List.map_nil, Assignment.entry, spacedLine, tightLine,
    List.foldl_cons, List.foldl_nil, hnext, settings.set, hspaced, htight, Values.settings]

/-! ## The settings after `parse_settings` -/

theorem parse_language_globals {s s' : State d} (h : parse_language s = .done s') :
    s'.globals = s.globals := by
  have hmounts := mounts_ensure .sdcard s
  unfold parse_language at h
  simp only at h
  split at h
  · exact absurd h (by simp)
  · split_ifs at h <;> obtain rfl := Outcome.done.inj h <;> exact hmounts.globals

theorem handle_theme_eq {s s' : State d} (h : handle_theme s = .done s') : s' = s := by
  unfold handle_theme at h
  split at h
  · exact absurd h (by simp)
  · simp only at h
    split_ifs at h <;> exact (Outcome.done.inj h).symm

theorem useSettings_globals {s s' : State d} (h : useSettings s = .done s') :
    s'.globals = s.globals := by
  obtain ⟨s₁, hlanguage, htheme⟩ := Outcome.bind_eq_done.mp h
  rw [handle_theme_eq htheme, parse_language_globals hlanguage]

/-- Names that are shorter than a line fit in the paths. -/
theorem useSettings_of_lt {s : State d} {theme language : Bytes}
    (htheme : s.globals.theme = some theme) (hlt : theme.length < INI_MAX_LINE)
    (hlanguage : s.globals.language = some language) (hlt' : language.length < INI_MAX_LINE) :
    useSettings s = .done (ensure_path_mounted .sdcard s).2 := by
  have hglobals := (mounts_ensure .sdcard s).globals
  have hpath : ∀ front back name : Bytes, front.length ≤ 100 → back.length ≤ 100 →
      name.length < INI_MAX_LINE → (front ++ name ++ back).length < PATH_SIZE := by
    intro front back name hfront hback hname
    simp only [List.length_append, INI_MAX_LINE, PATH_SIZE] at *
    omega
  have hparse : parse_language s = .done (ensure_path_mounted .sdcard s).2 := by
    have hfits := hpath (ascii "/sdcard/cotrecovery/lang/lang_") (ascii ".ini") language
      (by decide) (by decide) hlt'
    simp only [parse_language, hglobals, hlanguage, if_pos hfits, ite_self]
  have hhandle : handle_theme (ensure_path_mounted .sdcard s).2 =
      .done (ensure_path_mounted .sdcard s).2 := by
    unfold handle_theme
    simp only [hglobals, htheme]
    refine if_pos (hpath _ _ theme ?_ (by decide) hlt)
    split <;> decide
  rw [useSettings, hparse, Outcome.done_bind, hhandle]

/-- The settings file can be created: none is found once its card is mounted, and then the file
can be opened for writing. -/
def Creatable (s : State d) : Prop :=
  (fopen_read s).1 = false ∧ (fopen_write (fopen_read s).2).1 = true

theorem fopen_write_mounted {s : State d} (h : (fopen_write s).1 = true) :
    (fopen_write s).2.mounted (fopen_write s).2.COTSETTINGS.1 = true := by
  unfold fopen_write at *
  simp only at *
  split_ifs at * with hopen
  have hmounted := mounted_of_ensure (Bool.and_eq_true_iff.mp hopen).1
  have hcard := (mounts_ensure s.COTSETTINGS.1 s).COTSETTINGS
  simp only [State.write, hcard]
  exact hmounted

theorem settingsFile_write {s : State d} (h : s.mounted s.COTSETTINGS.1 = true) (text : Bytes) :
    (s.write text).settingsFile = some text := by
  have hmounted : (s.write text).mounted (s.write text).COTSETTINGS.1 = true := h
  rw [State.settingsFile, if_pos hmounted]
  exact if_pos rfl

theorem create_eq (s : State d) :
    create_default_settings s =
      if (fopen_read s).1 = false ∧ (fopen_write (fopen_read s).2).1 = true then
        .done { (fopen_write (fopen_read s).2).2.write default_settings_text with
          first_boot := true }
      else .fault := by
  unfold create_default_settings
  cases hread : fopen_read s with
  | mk opened s₁ =>
    cases opened with
    | true => simp
    | false =>
      cases hwrite : fopen_write s₁ with
      | mk ok s₂ => cases ok <;> simp [hwrite]

theorem create_of_creatable {s : State d} (h : Creatable s) :
    ∃ s', create_default_settings s = .done s' ∧
      s'.settingsFile = some default_settings_text := by
  rw [create_eq]
  exact ⟨_, if_pos h, settingsFile_write (fopen_write_mounted h.2) _⟩

theorem creatable_of_create {s s' : State d} (h : create_default_settings s = .done s') :
    Creatable s := by
  rw [create_eq] at h
  split at h
  · assumption
  · exact absurd h (by simp)

/-- The value that `create_default_settings` writes for a key. -/
def Key.default : Key → Value
  | .theme => .text (ascii "hydro")
  | .sdtheme => .number 0
  | .orsreboot => .number 0
  | .orswipeprompt => .number 1
  | .backupprompt => .number 1
  | .signaturecheckenabled => .number 0
  | .backupformat => .number 0
  | .maxX => .number 0
  | .maxY => .number 0
  | .touchY => .number 0
  | .language => .text (ascii "en")

/-- The settings that `create_default_settings` writes. -/
def defaultValues : Values where
  theme := ⟨ascii "hydro", Word.of_all (by decide), by decide⟩
  is_sd_theme := ⟨0, by decide⟩
  orsreboot := ⟨0, by decide⟩
  orswipeprompt := ⟨1, by decide⟩
  backupprompt := ⟨1, by decide⟩
  signaturecheckenabled := ⟨0, by decide⟩
  backupfmt := ⟨0, by decide⟩
  ts_x := ⟨0, by decide⟩
  ts_y := ⟨0, by decide⟩
  ts_touchY := ⟨0, by decide⟩
  language := ⟨ascii "en", Word.of_all (by decide), by decide⟩

/-- The two texts have one format. -/
theorem default_settings_text_eq : default_settings_text = defaultValues.text := by
  decide +kernel

/-- The file that is created gives every key its default. -/
theorem last_default (k : Key) : last k (entries default_settings_text) = some k.default := by
  rw [← get_parsed, default_settings_text_eq, parsed_text]
  cases k <;> rfl

theorem get_parsed_default (k : Key) :
    (parsed default_settings_text).get k = some k.default := by
  rw [get_parsed, last_default]

/-- The value that `load_fallback_settings` assigns. It leaves the calibration. -/
def Key.fallback : Key → Option Value
  | .theme => some (.text (ascii "hydro"))
  | .sdtheme => some (.number 0)
  | .orsreboot => some (.number 0)
  | .orswipeprompt => some (.number 1)
  | .backupprompt => some (.number 1)
  | .signaturecheckenabled => some (.number 1)
  | .backupformat => some (.number 0)
  | .maxX => none
  | .maxY => none
  | .touchY => none
  | .language => some (.text (ascii "en"))

theorem get_load_fallback_settings (s : State d) (k : Key) :
    (load_fallback_settings s).globals.get k = k.fallback.or (s.globals.get k) := by
  cases k <;> rfl

/-- What a setting is to be after `parse_settings`: the last value in the file or the default,
and without a card the value that `load_fallback_settings` gives it or that it had. -/
def expected (s : State d) (k : Key) : Option Value :=
  match located s with
  | none => k.fallback.or (s.globals.get k)
  | some s => some ((last k (entries (s.settingsFile.getD []))).getD k.default)

/-- After `parse_settings` every setting is what it is to be, and it is set. -/
def SettingsDefined (s : State d) : Prop :=
  ∃ s', parse_settings s = .done s' ∧
    ∀ k, (expected s k).isSome = true ∧ s'.globals.get k = expected s k

/-- Without a card the calibration was set before; a file that is found gives every key a value;
and one that is not found can be created. -/
def Complete (s : State d) : Prop :=
  match located s with
  | none => ∀ k : Key, k.fallback = none → (s.globals.get k).isSome = true
  | some s =>
    match s.settingsFile with
    | some file => ∀ k, (last k (entries file)).isSome = true
    | none => Creatable s

/-- A name in a file is shorter than a line. -/
theorem length_of_last {k : Key} {file value : Bytes}
    (h : last k (entries file) = some (.text value)) : value.length < INI_MAX_LINE := by
  obtain ⟨e, hfind, hread⟩ := Option.map_eq_some_iff.mp h
  have he : e ∈ entries file := List.mem_reverse.mp (List.mem_of_find?_eq_some hfind)
  have hvalue : e.value = value := by
    cases k <;> first | exact Value.text.inj hread | exact absurd hread nofun
  rw [← hvalue]
  exact length_value_lt he

/-- A file that gives every key a value is used without a fault. -/
theorem useSettings_parsed (s : State d) {file : Bytes}
    (hall : ∀ k, (last k (entries file)).isSome = true) :
    useSettings { s with globals := parsed file } =
      .done (ensure_path_mounted .sdcard { s with globals := parsed file }).2 := by
  have htheme := hall .theme
  have hlanguage := hall .language
  rw [← get_parsed] at htheme hlanguage
  cases hname : (parsed file).theme with
  | none => simp [settings.get, hname] at htheme
  | some theme =>
    cases hcode : (parsed file).language with
    | none => simp [settings.get, hcode] at hlanguage
    | some language =>
      have hlast : last .theme (entries file) = some (.text theme) := by
        simp [← get_parsed, settings.get, hname]
      have hlast' : last .language (entries file) = some (.text language) := by
        simp [← get_parsed, settings.get, hcode]
      exact useSettings_of_lt hname (length_of_last hlast) hcode (length_of_last hlast')

theorem settings_defined_of_file {s s₁ : State d} {file : Bytes} (hlocated : located s = some s₁)
    (hfile : s₁.settingsFile = some file) :
    SettingsDefined s ↔ ∀ k, (last k (entries file)).isSome = true := by
  have hparse : parse_settings s = useSettings { s₁ with globals := parsed file } := by
    rw [parse_settings_eq, hlocated]
    exact loadFile_some hfile _
  have hexpected : ∀ k, expected s k = some ((last k (entries file)).getD k.default) := by
    intro k
    simp only [expected, hlocated, hfile, Option.getD_some]
  constructor
  · rintro ⟨s', hdone, hk⟩ k
    rw [hparse] at hdone
    have hget := (hk k).2
    rw [useSettings_globals hdone, get_parsed, hexpected k] at hget
    rw [hget, Option.isSome_some]
  · intro hall
    refine ⟨_, hparse.trans (useSettings_parsed s₁ hall), fun k => ?_⟩
    obtain ⟨value, hvalue⟩ := Option.isSome_iff_exists.mp (hall k)
    rw [hexpected, (mounts_ensure .sdcard _).globals, get_parsed, hvalue]
    exact ⟨rfl, rfl⟩

theorem settings_defined_of_no_file {s s₁ : State d} (hlocated : located s = some s₁)
    (hfile : s₁.settingsFile = none) : SettingsDefined s ↔ Creatable s₁ := by
  have hparse : parse_settings s = loadFile settings.unset s₁ := by
    rw [parse_settings_eq, hlocated]
  rw [loadFile_none hfile] at hparse
  have hexpected : ∀ k, expected s k = some k.default := by
    intro k
    simp only [expected, hlocated, hfile, Option.getD_none]
    rfl
  constructor
  · rintro ⟨s', hdone, -⟩
    rw [hparse] at hdone
    obtain ⟨s₂, hcreate, -⟩ := Outcome.bind_eq_done.mp hdone
    exact creatable_of_create hcreate
  · intro hcreatable
    obtain ⟨s₂, hcreate, hwritten⟩ := create_of_creatable hcreatable
    rw [hcreate, Outcome.done_bind, hwritten, ini_parse_some, ← parsed] at hparse
    have hset : ∀ k, (last k (entries default_settings_text)).isSome = true := by
      intro k
      rw [last_default, Option.isSome_some]
    refine ⟨_, hparse.trans (useSettings_parsed s₂ hset), fun k => ?_⟩
    rw [hexpected, (mounts_ensure .sdcard _).globals]
    refine ⟨rfl, ?_⟩
    simp only [get_parsed_default]

theorem settings_defined_of_fallback {s : State d} (hlocated : located s = none) :
    SettingsDefined s ↔ ∀ k : Key, k.fallback = none → (s.globals.get k).isSome = true := by
  have hparse : parse_settings s =
      useSettings (load_fallback_settings (ensure_path_mounted .sdcard s).2) := by
    rw [parse_settings_eq, hlocated]
  have htheme : (ascii "hydro").length < INI_MAX_LINE := by decide
  have hlanguage : (ascii "en").length < INI_MAX_LINE := by decide
  have hdone : useSettings (load_fallback_settings (ensure_path_mounted .sdcard s).2) =
      .done (ensure_path_mounted .sdcard
        (load_fallback_settings (ensure_path_mounted .sdcard s).2)).2 :=
    useSettings_of_lt rfl htheme rfl hlanguage
  have hexpected : ∀ k, expected s k = k.fallback.or (s.globals.get k) := by
    intro k
    simp only [expected, hlocated]
  constructor
  · rintro ⟨s', -, hk⟩ k hfallback
    have hset := (hk k).1
    rw [hexpected, hfallback, Option.none_or] at hset
    exact hset
  · intro hcalibrated
    refine ⟨_, hparse.trans hdone, fun k => ?_⟩
    rw [hexpected, (mounts_ensure .sdcard _).globals, get_load_fallback_settings,
      (mounts_ensure .sdcard s).globals]
    refine ⟨?_, rfl⟩
    cases hfallback : k.fallback with
    | none => rw [Option.none_or, hcalibrated k hfallback]
    | some value => rfl

/-- The settings are defined after `parse_settings` if and only if nothing is left out. -/
theorem settings_defined_iff (s : State d) : SettingsDefined s ↔ Complete s := by
  unfold Complete
  cases hlocated : located s with
  | none => exact settings_defined_of_fallback hlocated
  | some s₁ =>
    cases hfile : s₁.settingsFile with
    | none => exact (settings_defined_of_no_file hlocated hfile).trans (by simp only [hfile])
    | some file => exact (settings_defined_of_file hlocated hfile).trans (by simp only [hfile])

/-- A device with one card, which is mounted and holds the given settings file. -/
def oneCard (file : Bytes) : State ⟨false, fun _ => true, fun _ => true⟩ where
  mounted c := c = .sdcard
  attempts := 0
  files c := if c = .sdcard then some file else none
  COTSETTINGS := ⟨.sdcard, nofun⟩
  globals := settings.unset
  fallback_settings := false
  first_boot := false

/-- A file that has only the theme and the language leaves the signature check unset. -/
theorem settings_undefined_without_key :
    ¬ SettingsDefined (oneCard (ascii "[Settings]\nTheme = hydro ;\nLanguage = en ;\n")) := by
  rintro ⟨s', hdone, hk⟩
  have hget : (parse_settings (oneCard
      (ascii "[Settings]\nTheme = hydro ;\nLanguage = en ;\n"))).value?.map
      (·.globals.get .signaturecheckenabled) = some none := by
    decide
  rw [hdone] at hget
  have hnone : s'.globals.get .signaturecheckenabled = none := Option.some.inj hget
  obtain ⟨hset, heq⟩ := hk .signaturecheckenabled
  rw [← heq, hnone] at hset
  exact absurd hset (by simp)

/-! ## Writing and reading -/

theorem mounted_of_settingsFile {s : State d} {file : Bytes} (h : s.settingsFile = some file) :
    s.mounted s.COTSETTINGS.1 = true := by
  unfold State.settingsFile at h
  split at h
  · assumption
  · exact absurd h nofun

/-- A file that can be opened is the one that is read. -/
theorem located_of_file {s : State d} {file : Bytes} (hfile : s.settingsFile = some file) :
    ∃ s', located s = some s' ∧ Mounts s s' := by
  have hmounted := mounted_of_settingsFile hfile
  have hmounts := mounts_ensure .sdcard s
  have hsdcard : s.COTSETTINGS.1 = .sdcard → (ensure_path_mounted .sdcard s).1 = true := by
    intro hcard
    rw [hcard] at hmounted
    rw [ensure_of_mounted hmounted]
  unfold located
  generalize hensure : ensure_path_mounted .sdcard s = ensured at *
  obtain ⟨sdcard, s₁⟩ := ensured
  by_cases hemmc : d.isEmmc = true
  · cases sdcard with
    | true => exact ⟨s₁, by simp [hemmc, hmounts.settingsFile hfile], hmounts⟩
    | false =>
      have hcard : s.COTSETTINGS.1 = .emmc := by
        cases hcard : s.COTSETTINGS.1 with
        | sdcard => exact absurd (hsdcard hcard) nofun
        | emmc => rfl
      have hboth := hmounts.trans (mounts_ensure .emmc s₁)
      refine ⟨{ (ensure_path_mounted .emmc s₁).2 with COTSETTINGS := ⟨.emmc, fun _ => hemmc⟩ },
        by simp [hemmc], hboth.mounted, hboth.files, Subtype.ext hcard.symm, hboth.globals⟩
  · have hcard : s.COTSETTINGS.1 = .sdcard := by
      cases hcard : s.COTSETTINGS.1 with
      | sdcard => rfl
      | emmc => exact absurd (s.COTSETTINGS.2 hcard) hemmc
    obtain rfl : sdcard = true := hsdcard hcard
    exact ⟨s₁, by simp [hemmc], hmounts⟩

/-- `parse_settings` reads a complete file that can be opened, and leaves it. -/
theorem parse_settings_of_file {s : State d} {file : Bytes} (hfile : s.settingsFile = some file)
    (hall : ∀ k, (last k (entries file)).isSome = true) :
    ∃ s', parse_settings s = .done s' ∧ s'.globals = parsed file ∧
      s'.settingsFile = some file ∧ s'.COTSETTINGS = s.COTSETTINGS := by
  obtain ⟨s₁, hlocated, hmounts⟩ := located_of_file hfile
  have hfile₁ := hmounts.settingsFile hfile
  have hassigned : ({ s₁ with globals := parsed file } : State d).settingsFile = some file := hfile₁
  have hfinal := mounts_ensure .sdcard { s₁ with globals := parsed file }
  refine ⟨_, ?_, hfinal.globals, hfinal.settingsFile hassigned,
    hfinal.COTSETTINGS.trans hmounts.COTSETTINGS⟩
  rw [parse_settings_eq, hlocated]
  exact (loadFile_some hfile₁ _).trans (useSettings_parsed s₁ hall)

/-- The file can be opened for writing: its card is mounted or the next attempt to mount it
succeeds. -/
def Writable (s : State d) : Prop :=
  (s.mounted s.COTSETTINGS.1 = true ∨ d.mounts s.attempts = true) ∧
    d.writable s.COTSETTINGS.1 = true

theorem fopen_write_iff (s : State d) : (fopen_write s).1 = true ↔ Writable s := by
  have hcard := (mounts_ensure s.COTSETTINGS.1 s).COTSETTINGS
  have hensure : (ensure_path_mounted s.COTSETTINGS.1 s).1 = true ↔
      s.mounted s.COTSETTINGS.1 = true ∨ d.mounts s.attempts = true := by
    unfold ensure_path_mounted
    split_ifs with hmounted hmounts
    · simp [hmounted]
    · simp [hmounts]
    · simp [hmounted, hmounts]
  unfold fopen_write Writable
  simp only [hcard]
  split_ifs with hopen
  · rw [Bool.and_eq_true_iff, hensure] at hopen
    exact iff_of_true rfl hopen
  · rw [Bool.and_eq_true_iff, hensure] at hopen
    exact iff_of_false nofun hopen

theorem fopen_write_frame (s : State d) :
    (fopen_write s).2.globals = s.globals ∧ (fopen_write s).2.COTSETTINGS = s.COTSETTINGS := by
  have hmounts := mounts_ensure s.COTSETTINGS.1 s
  unfold fopen_write
  simp only
  split <;> exact ⟨hmounts.globals, hmounts.COTSETTINGS⟩

theorem last_text (v : Values) (k : Key) : (last k (entries v.text)).isSome = true := by
  rw [← get_parsed, parsed_text]
  cases k <;> rfl

/-- `update_cot_settings` writes the file and reads it again. -/
theorem update_of_writable {s : State d} {v : Values} (hglobals : s.globals = v.settings)
    (hwritable : Writable s) :
    ∃ s', update_cot_settings s = .done s' ∧ s'.globals = v.settings ∧
      s'.settingsFile = some v.text ∧ s'.COTSETTINGS = s.COTSETTINGS := by
  have hopen := (fopen_write_iff s).mpr hwritable
  have hmounted := fopen_write_mounted hopen
  obtain ⟨hkept, hcard⟩ := fopen_write_frame s
  have hread : ((fopen_write s).2.write v.text).settingsFile = some v.text :=
    settingsFile_write hmounted v.text
  obtain ⟨s', hparse, hparsed, hfile, hcard'⟩ := parse_settings_of_file hread (last_text v)
  refine ⟨s', ?_, hparsed.trans (parsed_text v), hfile, hcard'.trans hcard⟩
  unfold update_cot_settings
  cases hwrite : fopen_write s with
  | mk ok s₁ =>
    rw [hwrite] at hopen hkept hparse
    obtain rfl : ok = true := hopen
    have htext : settings_text s₁.globals = some v.text := by
      rw [← settings_text_values, ← hglobals]
      exact congrArg settings_text hkept
    simp only [htext]
    exact hparse

theorem update_of_not_writable {s : State d} (h : ¬ Writable s) :
    update_cot_settings s = .fault := by
  rw [← fopen_write_iff, Bool.not_eq_true] at h
  unfold update_cot_settings
  cases hwrite : fopen_write s with
  | mk ok s₁ =>
    rw [hwrite] at h
    obtain rfl : ok = false := h
    rfl

/-- `update_cot_settings` and then `parse_settings` leave every setting as it is, and a second
`update_cot_settings` leaves the same file. -/
def RoundTrip (s : State d) : Prop :=
  ∃ s₁, update_cot_settings s = .done s₁ ∧ s₁.globals = s.globals ∧
    ∃ s₂, parse_settings s₁ = .done s₂ ∧ s₂.globals = s.globals ∧
      ∃ s₃, update_cot_settings s₂ = .done s₃ ∧ s₃.COTSETTINGS = s₁.COTSETTINGS ∧
        ∃ file, s₁.settingsFile = some file ∧ s₃.settingsFile = some file

/-- The state with settings that are all set. -/
def State.withValues (s : State d) (v : Values) : State d := { s with globals := v.settings }

/-- The settings survive being written and read if and only if the file can be written. -/
theorem settings_round_trip_iff (s : State d) (v : Values) :
    RoundTrip (s.withValues v) ↔ Writable s := by
  constructor
  · rintro ⟨s₁, hupdate, -⟩
    by_contra hno
    rw [update_of_not_writable (s := s.withValues v) hno] at hupdate
    exact absurd hupdate nofun
  · intro hwritable
    have hglobals : (s.withValues v).globals = v.settings := rfl
    obtain ⟨s₁, hupdate₁, hglobals₁, hfile₁, hcard₁⟩ := update_of_writable hglobals hwritable
    obtain ⟨s₂, hparse, hglobals₂, hfile₂, hcard₂⟩ :=
      parse_settings_of_file hfile₁ (last_text v)
    rw [parsed_text] at hglobals₂
    -- the card is still mounted, so that the file can be written again
    have hwritable₂ : Writable s₂ := by
      refine ⟨.inl (mounted_of_settingsFile hfile₂), ?_⟩
      rw [hcard₂, hcard₁]
      exact hwritable.2
    obtain ⟨s₃, hupdate₃, -, hfile₃, hcard₃⟩ := update_of_writable hglobals₂ hwritable₂
    exact ⟨s₁, hupdate₁, hglobals₁, s₂, hparse, hglobals₂, s₃, hupdate₃, hcard₃.trans hcard₂,
      v.text, hfile₁, hfile₃⟩

/-- The settings without a card. -/
def fallbackValues : Values :=
  { defaultValues with signaturecheckenabled := ⟨1, by decide⟩ }

/-- A device with one card, which can not be mounted. -/
def noCard : State ⟨false, fun _ => false, fun _ => true⟩ where
  mounted _ := false
  attempts := 0
  files _ := none
  COTSETTINGS := ⟨.sdcard, nofun⟩
  globals := settings.unset
  fallback_settings := true
  first_boot := false

/-- Without a card the stream that is written to is null. -/
theorem settings_round_trip_no_card : ¬ RoundTrip (noCard.withValues fallbackValues) := by
  rintro ⟨s₁, hupdate, -⟩
  have hfault : update_cot_settings (noCard.withValues fallbackValues) = .fault := rfl
  rw [hfault] at hupdate
  exact absurd hupdate nofun

end BootableRecovery.Settings
