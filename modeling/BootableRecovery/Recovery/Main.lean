import BootableRecovery.Lib.Prog
import BootableRecovery.Recovery.Args

/-!
# `recovery.c`: a boot of recovery, and power losses

A boot runs `main`: it takes its arguments with `get_args`, does what they ask
for, and clears the bootloader message in `finish_recovery`. Power can be lost
between any two operations on persistent storage, and the next boot starts from
what is stored then.

What a boot does besides its own protocol (installing a package, the menu,
scripts) can change everything that is stored, the message included; `External`
names these parts. The command file can change at any time.

Main results:
* `get_args_requests`: `get_args` keeps a request to wipe the data.
* `wipe_data_survives`: the request is lost only in a boot in which `/data` and
  `/cache` have been erased.
-/

namespace BootableRecovery.Recovery

/-! ## Operations -/

/-- The volumes that `main` erases. -/
inductive Volume where
  | data
  | datadata
  | cache
  deriving DecidableEq, Repr

/-- Parts of a boot that are not modelled: they can change all that is stored. -/
inductive External where
  | install_package
  | apply_from_adb
  | run_script_file
  | run_and_remove_extendedcommand
  | prompt_and_wait
  | verify_root_and_recovery
  | maybe_install_firmware_update
  deriving DecidableEq, Repr

/-- The operations of a boot. `eraseBegin` and `eraseReturn` are the two ends of
a call of `erase_volume`. `ui_text_visible`, `extendedcommand_file_exists` and
`get_menu_selection` change nothing; the last one tells how often the menu of a
headless boot comes back before the power is cut. -/
inductive Op where
  | get_bootloader_message
  | set_bootloader_message (m : BootloaderMessage)
  | fopenCommandFile
  | unlinkCommandFile
  | writeIntent (text : Bytes)
  | copyLogs
  | eraseBegin (v : Volume)
  | eraseReturn (v : Volume)
  | external (e : External)
  | ui_text_visible
  | extendedcommand_file_exists
  | get_menu_selection

/-- The answers. The status of a call is `true` when it is not zero. -/
@[reducible] def Ans : Op → Type
  | .get_bootloader_message => BootloaderMessage
  | .fopenCommandFile => Option Bytes
  | .eraseReturn _ => Bool
  | .external _ => Bool
  | .ui_text_visible => Bool
  | .extendedcommand_file_exists => Bool
  | .get_menu_selection => Nat
  | _ => Unit

/-- What is stored, and which calls of `erase_volume` have returned since the
power came on. -/
structure Device where
  message : BootloaderMessage
  command : Option Bytes
  erased : Volume → Bool

/-- The erases of an earlier boot do not count for the next one. -/
def powerOn (d : Device) : Device := { d with erased := fun _ => false }

/-- One operation. After each of them the command file can be anything. -/
inductive Step (d : Device) : (o : Op) → Ans o → Device → Prop where
  | get_bootloader_message (command : Option Bytes) :
      Step d .get_bootloader_message d.message { d with command := command }
  | set_bootloader_message (m : BootloaderMessage) (command : Option Bytes) :
      Step d (.set_bootloader_message m) () { d with message := m, command := command }
  | fopenCommandFile (file command : Option Bytes) (h : file = d.command ∨ file = none) :
      Step d .fopenCommandFile file { d with command := command }
  | unlinkCommandFile (command : Option Bytes) :
      Step d .unlinkCommandFile () { d with command := command }
  | writeIntent (text : Bytes) (command : Option Bytes) :
      Step d (.writeIntent text) () { d with command := command }
  | copyLogs (command : Option Bytes) : Step d .copyLogs () { d with command := command }
  | eraseBegin (v : Volume) (command : Option Bytes) :
      Step d (.eraseBegin v) () { d with command := command }
  | eraseReturn (v : Volume) (failed : Bool) (command : Option Bytes) :
      Step d (.eraseReturn v) failed
        { d with command := command, erased := Function.update d.erased v true }
  | external (e : External) (failed : Bool) (m : BootloaderMessage) (command : Option Bytes) :
      Step d (.external e) failed { d with message := m, command := command }
  | ui_text_visible (visible : Bool) (command : Option Bytes) :
      Step d .ui_text_visible visible { d with command := command }
  | extendedcommand_file_exists (found : Bool) (command : Option Bytes) :
      Step d .extendedcommand_file_exists found { d with command := command }
  | get_menu_selection (rounds : Nat) (command : Option Bytes) :
      Step d .get_menu_selection rounds { d with command := command }

/-! ## The program -/

abbrev Boot := Prog Op Ans

/-- One operation of a boot. -/
def perform (o : Op) : Boot (Ans o) := Prog.perform o

/-- What `getopt_long` reports for one argument. -/
inductive Opt where
  | send_intent (optarg : Bytes)
  | update_package (optarg : Bytes)
  | headless
  | wipe_data
  | wipe_cache
  | show_text
  | sideload
  | invalid
  deriving DecidableEq, Repr

/-- The variables that the options set. -/
structure Options where
  send_intent : Option Bytes := none
  update_package : Option Bytes := none
  wipe_data : Bool := false
  wipe_cache : Bool := false
  sideload : Bool := false
  headless : Bool := false
  deriving DecidableEq, Repr

/-- One turn of the loop over the options, without
`BOARD_RECOVERY_ALWAYS_WIPES`. -/
def applyOpt (o : Options) : Opt → Options
  | .send_intent optarg => { o with send_intent := some optarg }
  | .update_package optarg => { o with update_package := some optarg }
  | .wipe_data => { o with wipe_data := true, wipe_cache := true }
  | .headless => { o with headless := true }
  | .wipe_cache => { o with wipe_cache := true }
  | .show_text => o
  | .sideload => { o with sideload := true }
  | .invalid => o

def parseOptions (opts : List Opt) : Options := opts.foldl applyOpt {}

/-- The command file is opened only when the message has no arguments. -/
def commandFile (boot : BootloaderMessage) : Boot (Option Bytes) :=
  if bootArgs boot = [] then perform .fopenCommandFile else Prog.ret none

/-- `get_args` as operations. -/
def getArgs : Boot (List Bytes) := do
  let boot ← perform .get_bootloader_message
  let file ← commandFile boot
  let r := get_args boot file
  perform (.set_bootloader_message r.2)
  Prog.ret r.1

/-- `erase_volume`; `true` when it fails. -/
def erase_volume (v : Volume) : Boot Bool := do
  perform (.eraseBegin v)
  perform (.eraseReturn v)

def eraseIf (wanted : Bool) (v : Volume) : Boot Bool :=
  if wanted then erase_volume v else Prog.ret false

/-- `finish_recovery`. -/
def finish_recovery (send_intent : Option Bytes) : Boot Unit := do
  match send_intent with
  | some text => perform (.writeIntent text)
  | none => Prog.ret ()
  perform .copyLogs
  perform (.set_bootloader_message zeroMessage)
  perform .unlinkCommandFile

/-- `headless_wait`: the menu comes back until the power is cut. -/
def headlessRounds : Nat → Boot Unit
  | 0 => Prog.ret ()
  | rounds + 1 => do
    finish_recovery none
    headlessRounds rounds

/-- What a boot does when its arguments ask for nothing; the result tells
whether it failed. -/
def userInitiated : Boot Bool := do
  let _ ← perform (.external .run_script_file)
  let found ← perform .extendedcommand_file_exists
  if found then perform (.external .run_and_remove_extendedcommand) else Prog.ret true

/-- What the options ask for: whether it failed, and whether it was started by
the user. `device_wipe_data` returns 0. -/
def runOptions (has_datadata : Bool) (o : Options) : Boot (Bool × Bool) := do
  if o.update_package.isSome then
    let failed ← perform (.external .install_package)
    Prog.ret (failed, false)
  else if o.wipe_data then
    let data ← erase_volume .data
    let datadata ← eraseIf has_datadata .datadata
    let cache ← eraseIf o.wipe_cache .cache
    Prog.ret (data || datadata || cache, false)
  else if o.wipe_cache then
    let cache ← erase_volume .cache
    Prog.ret (cache, false)
  else if o.sideload then
    let _ ← perform (.external .apply_from_adb)
    Prog.ret (false, false)
  else
    let failed ← userInitiated
    Prog.ret (failed, true)

/-- The end of `main`. -/
def leave (o : Options) (failed user : Bool) : Boot Unit := do
  if o.headless then
    let rounds ← perform .get_menu_selection
    headlessRounds rounds
  else
    if failed && !user then Prog.ret ()
    else
      let visible ← if failed then Prog.ret true else perform .ui_text_visible
      if visible then
        let _ ← perform (.external .prompt_and_wait)
        Prog.ret ()
      else Prog.ret ()
    let _ ← perform (.external .verify_root_and_recovery)
    let _ ← perform (.external .maybe_install_firmware_update)
    finish_recovery o.send_intent

/-- `main` behind `get_args`. -/
def runArgs (getopt_long : List Bytes → List Opt) (has_datadata : Bool) (args : List Bytes) :
    Boot Unit := do
  let o := parseOptions (getopt_long args)
  let r ← runOptions has_datadata o
  leave o r.1 r.2

/-- `main` of a boot without arguments on the command line. -/
def main (getopt_long : List Bytes → List Opt) (has_datadata : Bool) : Boot Unit := do
  let args ← getArgs
  runArgs getopt_long has_datadata args

/-! ## Options -/

/-- The arguments ask for a wipe of the data, and for no installation. -/
def WipeRequested (getopt_long : List Bytes → List Opt) (args : List Bytes) : Prop :=
  .wipe_data ∈ getopt_long args ∧ ∀ path, .update_package path ∉ getopt_long args

theorem foldl_applyOpt (opts : List Opt) : ∀ o : Options,
    ((o.wipe_data = true ∧ o.wipe_cache = true ∨ .wipe_data ∈ opts) →
      (opts.foldl applyOpt o).wipe_data = true ∧ (opts.foldl applyOpt o).wipe_cache = true) ∧
    (o.update_package = none → (∀ path, .update_package path ∉ opts) →
      (opts.foldl applyOpt o).update_package = none) := by
  induction opts with
  | nil =>
    intro o
    refine ⟨fun h => ?_, fun h _ => h⟩
    rcases h with h | h
    · exact h
    · cases h
  | cons opt opts ih =>
    intro o
    obtain ⟨hwipe, hpackage⟩ := ih (applyOpt o opt)
    rw [List.foldl_cons]
    refine ⟨fun h => hwipe ?_, fun hnone hno => hpackage ?_ ?_⟩
    · rcases h with ⟨hd, hc⟩ | h
      · left
        cases opt <;> simp [applyOpt, hd, hc]
      · rcases List.mem_cons.mp h with rfl | h
        · exact .inl ⟨rfl, rfl⟩
        · exact .inr h
    · cases opt with
      | update_package path => exact absurd (List.mem_cons_self ..) (hno path)
      | _ => exact hnone
    · exact fun path hmem => hno path (List.mem_cons_of_mem _ hmem)

theorem WipeRequested.options {getopt_long : List Bytes → List Opt} {args : List Bytes}
    (h : WipeRequested getopt_long args) :
    (parseOptions (getopt_long args)).wipe_data = true ∧
      (parseOptions (getopt_long args)).wipe_cache = true ∧
      (parseOptions (getopt_long args)).update_package = none := by
  obtain ⟨hwipe, hpackage⟩ := foldl_applyOpt (getopt_long args) {}
  exact ⟨(hwipe (.inr h.1)).1, (hwipe (.inr h.1)).2, hpackage rfl h.2⟩

/-! ## The request in the message -/

/-- The message has arguments that ask for a wipe of the data. -/
def Requests (getopt_long : List Bytes → List Opt) (m : BootloaderMessage) : Prop :=
  bootArgs m ≠ [] ∧ WipeRequested getopt_long (bootArgs m)

/-- The erases of `/data` and of `/cache` have returned in this boot. -/
def Wiped (d : Device) : Prop := d.erased .data = true ∧ d.erased .cache = true

section Survive

variable {getopt_long : List Bytes → List Opt} {has_datadata : Bool}

/-- With arguments in the message the command file does not matter. -/
theorem get_args_of_boot {m : BootloaderMessage} (h : bootArgs m ≠ []) (file : Option Bytes) :
    (get_args m file).1 = bootArgs m := by
  have hpos : 0 < (bootArgs m).length := List.length_pos_iff.mpr h
  unfold get_args
  simp only
  rw [if_neg (by omega)]

/-- The message that `get_args` writes has its arguments, when they fit. -/
theorem bootArgs_get_args {m : BootloaderMessage} {file : Option Bytes}
    (hfit : (encodeArgs (get_args m file).1).length ≤ 1024) :
    bootArgs (get_args m file).2 = (get_args m file).1 :=
  bootArgs_encodeArgs (get_args_valid m file) hfit (get_args_holdsArgs (get_args_valid m file))

/-- `get_args` keeps a request to wipe the data. -/
theorem get_args_requests {m : BootloaderMessage} (h : Requests getopt_long m)
    (file : Option Bytes) : Requests getopt_long (get_args m file).2 := by
  have hargs := get_args_of_boot h.1 file
  have hsame : bootArgs (get_args m file).2 = bootArgs m := by
    rw [bootArgs_get_args (by rw [hargs]; exact encodeArgs_bootArgs_length_le m), hargs]
  exact ⟨by rw [hsame]; exact h.1, by rw [hsame]; exact h.2⟩

/-- What holds all along a boot that starts with a request. -/
def Safe (getopt_long : List Bytes → List Opt) (d : Device) : Prop :=
  Requests getopt_long d.message ∨ Wiped d

theorem wiped_stable (d : Device) (o : Op) (a : Ans o) (d' : Device) (h : Wiped d)
    (hs : Step d o a d') : Wiped d' := by
  cases hs with
  | eraseReturn v failed command =>
    have hkeep : ∀ w, d.erased w = true → Function.update d.erased v true w = true := by
      intro w hw
      by_cases hv : w = v
      · rw [hv, Function.update_self]
      · rw [Function.update_of_ne hv, hw]
    exact ⟨hkeep _ h.1, hkeep _ h.2⟩
  | _ => exact h

/-- Behind the erases nothing can go wrong. -/
theorem always_of_wiped {α : Type} {d : Device} (h : Wiped d) (p : Boot α) :
    p.Always Step (Safe getopt_long) (fun _ _ => True) d :=
  .of_stable wiped_stable (fun _ h => .inr h) h p

/-- `erase_volume` keeps the message and what was erased before. -/
theorem erase_volume_always {v : Volume} {d : Device} (h : Requests getopt_long d.message) :
    (erase_volume v).Always Step (Safe getopt_long)
      (fun _ d' => d'.message = d.message ∧ d'.erased = Function.update d.erased v true) d := by
  refine ⟨.inl h, fun _ d₁ h₁ => ?_⟩
  cases h₁ with
  | eraseBegin _ command =>
    refine ⟨.inl h, fun _ d₂ h₂ => ?_⟩
    cases h₂ with
    | eraseReturn _ failed command => exact ⟨.inl h, rfl, rfl⟩

/-- A boot that was asked to wipe the data erases it, and the cache. -/
theorem runOptions_always {o : Options} (hw : o.wipe_data = true) (hc : o.wipe_cache = true)
    (hp : o.update_package = none) {d : Device} (h : Requests getopt_long d.message) :
    (runOptions has_datadata o).Always Step (Safe getopt_long) (fun _ d' => Wiped d') d := by
  unfold runOptions
  simp only [hp, Option.isSome_none, Bool.false_eq_true, if_false, hw, if_true, hc]
  refine (erase_volume_always h).bind fun data d₁ _ h₁ => ?_
  obtain ⟨hm₁, he₁⟩ := h₁
  have hdata₁ : d₁.erased .data = true := by rw [he₁]; exact Function.update_self ..
  rw [← hm₁] at h
  have hmid : (eraseIf has_datadata .datadata).Always Step (Safe getopt_long)
      (fun _ d' => d'.message = d₁.message ∧ d'.erased .data = true) d₁ := by
    unfold eraseIf
    split
    · refine (erase_volume_always h).mono fun _ d' _ h' => ⟨h'.1, ?_⟩
      rw [h'.2]
      exact (Function.update_of_ne (by decide) _ _).trans hdata₁
    · exact ⟨.inl h, rfl, hdata₁⟩
  refine hmid.bind fun datadata d₂ _ h₂ => ?_
  obtain ⟨hm₂, hdata₂⟩ := h₂
  rw [← hm₂] at h
  refine (show (eraseIf true .cache).Always Step (Safe getopt_long) _ d₂ from
    erase_volume_always h).bind fun cache d₃ _ h₃ => ?_
  have hwiped : Wiped d₃ := by
    refine ⟨?_, ?_⟩
    · rw [h₃.2]
      exact (Function.update_of_ne (by decide) _ _).trans hdata₂
    · rw [h₃.2]
      exact Function.update_self ..
  exact ⟨.inr hwiped, hwiped⟩

/-- A boot behind `get_args`. -/
theorem runArgs_always {args : List Bytes} (hargs : WipeRequested getopt_long args) {d : Device}
    (h : Requests getopt_long d.message) :
    (runArgs getopt_long has_datadata args).Always Step (Safe getopt_long) (fun _ _ => True) d := by
  obtain ⟨hw, hc, hp⟩ := hargs.options
  exact (runOptions_always hw hc hp h).bind fun r d' _ hwiped => always_of_wiped hwiped _

/-- `get_args` takes the arguments of the request from the message. -/
theorem getArgs_always {d : Device} (h : Requests getopt_long d.message) :
    getArgs.Always Step (Safe getopt_long)
      (fun args d' => args = bootArgs d.message ∧ Requests getopt_long d'.message) d := by
  refine ⟨.inl h, fun boot d₁ h₁ => ?_⟩
  cases h₁ with
  | get_bootloader_message command =>
    have hfile : commandFile d.message = Prog.ret none := if_neg h.1
    show (commandFile d.message >>= fun file => perform (.set_bootloader_message
      (get_args d.message file).2) >>= fun _ => Prog.ret (get_args d.message file).1).Always _ _ _ _
    rw [hfile, Prog.ret_bind]
    refine ⟨.inl h, fun _ d₂ h₂ => ?_⟩
    cases h₂ with
    | set_bootloader_message _ command =>
      have hkeep := get_args_requests h none
      exact ⟨.inl hkeep, get_args_of_boot h.1 none, hkeep⟩

/-- A whole boot that starts with a request. -/
theorem main_always {d : Device} (h : Requests getopt_long d.message) :
    (main getopt_long has_datadata).Always Step (Safe getopt_long) (fun _ _ => True) d := by
  refine (getArgs_always h).bind fun args d' _ hget => runArgs_always ?_ hget.2
  rw [hget.1]
  exact h.2

/-- A step of the machine after which the message still has the request. -/
def KeepStep (getopt_long : List Bytes → List Opt) (has_datadata : Bool)
    (c c' : Prog.Config Op Ans Unit Device) : Prop :=
  Prog.CrashStep Step powerOn (· = main getopt_long has_datadata) c c' ∧
    Requests getopt_long c'.state.message

theorem always_of_keepSteps {c c' : Prog.Config Op Ans Unit Device}
    (hc : c.prog.Always Step (Safe getopt_long) (fun _ _ => True) c.state)
    (h : Relation.ReflTransGen (KeepStep getopt_long has_datadata) c c') :
    c'.prog.Always Step (Safe getopt_long) (fun _ _ => True) c'.state := by
  induction h with
  | refl => exact hc
  | tail _ hlast ih =>
    obtain ⟨hstep, hreq⟩ := hlast
    cases hstep with
    | run hs => exact ih.next hs
    | start hp =>
      subst hp
      exact main_always hreq

/-- A request to wipe the data survives any number of power losses. `get_args`
has stored arguments that fit and ask for a wipe. As long as the message keeps
the request, every boot gets these or other arguments that ask for a wipe,
whatever the command file is; and the message loses the request only in a boot
in which the erases of `/data` and of `/cache` have returned. -/
theorem wipe_data_survives (getopt_long : List Bytes → List Opt) (has_datadata : Bool)
    (boot : BootloaderMessage) (file : Option Bytes)
    (hne : (get_args boot file).1 ≠ [])
    (hreq : WipeRequested getopt_long (get_args boot file).1)
    (hfit : (encodeArgs (get_args boot file).1).length ≤ 1024)
    (d : Device) (hd : d.message = (get_args boot file).2)
    (c : Prog.Config Op Ans Unit Device)
    (hrun : Relation.ReflTransGen (KeepStep getopt_long has_datadata)
      ⟨d, runArgs getopt_long has_datadata (get_args boot file).1⟩ c) :
    (∀ command, WipeRequested getopt_long (get_args c.state.message command).1) ∧
      ∀ c', Prog.CrashStep Step powerOn (· = main getopt_long has_datadata) c c' →
        ¬ Requests getopt_long c'.state.message → Wiped c'.state := by
  have hargs := bootArgs_get_args hfit
  have hstart : Requests getopt_long d.message := by
    rw [hd]
    exact ⟨by rw [hargs]; exact hne, by rw [hargs]; exact hreq⟩
  have hnow : Requests getopt_long c.state.message := by
    rcases Relation.ReflTransGen.cases_tail hrun with heq | ⟨c₁, -, hlast⟩
    · rw [heq]
      exact hstart
    · exact hlast.2
  refine ⟨fun command => ?_, fun c' hstep hlost => ?_⟩
  · rw [get_args_of_boot hnow.1]
    exact hnow.2
  · have hall := always_of_keepSteps (runArgs_always hreq hstart) hrun
    cases hstep with
    | run hs => exact (hall.next hs).here.resolve_left hlost
    | start hp => exact absurd hnow hlost

/-- Option parsing for arguments that are options without a value. -/
def parseWipe (args : List Bytes) : List Opt :=
  args.map fun a => if a = ascii "--wipe_data" then .wipe_data else .invalid

/-- The command file of a factory reset. -/
def wipeCommand : Bytes := ascii "--wipe_data\n"

/-- The device behind `get_args` in the first boot of a factory reset. -/
def wipeDevice : Device := ⟨(get_args zeroMessage (some wipeCommand)).2, none, fun _ => false⟩

/-- Power is lost right behind `get_args`. -/
theorem wipe_data_survives_power_loss :
    (∀ command, WipeRequested parseWipe (get_args wipeDevice.message command).1) ∧
      ∀ c', Prog.CrashStep Step powerOn (· = main parseWipe false)
        ⟨powerOn wipeDevice, main parseWipe false⟩ c' →
        ¬ Requests parseWipe c'.state.message → Wiped c'.state := by
  have hargs : (get_args zeroMessage (some wipeCommand)).1 = [ascii "--wipe_data"] := by
    decide
  have hboot : bootArgs wipeDevice.message = [ascii "--wipe_data"] := by decide +kernel
  have hparse : parseWipe [ascii "--wipe_data"] = [.wipe_data] := by decide
  have hwipe : WipeRequested parseWipe [ascii "--wipe_data"] := by
    unfold WipeRequested
    rw [hparse]
    simp
  refine wipe_data_survives parseWipe false zeroMessage (some wipeCommand) ?_ ?_ ?_ wipeDevice rfl
    ⟨powerOn wipeDevice, main parseWipe false⟩ (.single ⟨.start rfl, ?_, ?_⟩)
  · rw [hargs]
    simp
  · rw [hargs]
    exact hwipe
  · rw [hargs]
    decide
  · show bootArgs wipeDevice.message ≠ []
    rw [hboot]
    simp
  · show WipeRequested parseWipe (bootArgs wipeDevice.message)
    rw [hboot]
    exact hwipe

end Survive

end BootableRecovery.Recovery
