import BootableRecovery.Lib.CString

/-!
# `recovery.c`: the arguments in the bootloader message

`get_args` takes the arguments of recovery from the bootloader message or, when
there are none, from `/cache/recovery/command`, and stores them in the message
again, so that an interrupted run is repeated with the same arguments.

The arguments are stored one per line in a field of 1024 bytes. What does not
fit is cut off.

Main results:
* `bootArgs_encodeArgs`: arguments that fit are found again.
* `get_args_bootArgs`: arguments taken from a message always fit; storing them
  keeps them.
* `get_args_roundtrip_iff`: which command files survive the way through the
  message.
-/

namespace BootableRecovery.Recovery

/-! ## The message -/

/-- `struct bootloader_message`. -/
structure BootloaderMessage where
  command : Bytes
  status : Bytes
  recovery : Bytes
  command_length : command.length = 32
  status_length : status.length = 32
  recovery_length : recovery.length = 1024

def MAX_ARG_LENGTH : Nat := 4096

def MAX_ARGS : Nat := 100

/-- A message of zero bytes. -/
def zeroMessage : BootloaderMessage where
  command := List.replicate 32 0
  status := List.replicate 32 0
  recovery := List.replicate 1024 0
  command_length := List.length_replicate
  status_length := List.length_replicate
  recovery_length := List.length_replicate

@[ext] theorem BootloaderMessage.ext {m m' : BootloaderMessage} (hc : m.command = m'.command)
    (hs : m.status = m'.status) (hr : m.recovery = m'.recovery) : m = m' := by
  cases m
  cases m'
  simp only at hc hs hr
  subst hc hs hr
  rfl

/-! ## Reading arguments -/

/-- `boot.recovery[sizeof(boot.recovery) - 1] = '\0'`. -/
def terminated (recovery : Bytes) : Bytes := recovery.set 1023 0

/-- The tokens that `get_args` takes from the field: the first one, and the
arguments behind it up to `MAX_ARGS`. The second part is the field afterwards,
where the ends of the lines have been overwritten. -/
def bootTokens (recovery : Bytes) : List Bytes × Bytes :=
  match strtokBuf [10] (terminated recovery) 0 with
  | none => ([], terminated recovery)
  | some (arg, b, pos) =>
    if arg = ascii "recovery" then
      let r := strtokBufAll [10] (MAX_ARGS - 1) b pos
      (arg :: r.1, r.2)
    else ([], b)

/-- `argv[1..]` from the bootloader message. -/
def bootArgs (m : BootloaderMessage) : List Bytes := (bootTokens m.recovery).1.tail

/-- The loop over the lines of the command file, from `argc` on. A line without
a token is skipped. -/
def commandLoop : List Bytes → Nat → List Bytes
  | [], _ => []
  | line :: lines, argc =>
    if argc < MAX_ARGS then
      match strtok [13, 10] (cstr line) with
      | some (token, _) => token :: commandLoop lines (argc + 1)
      | none => commandLoop lines argc
    else []

/-- `argv[1..]` from the contents of `COMMAND_FILE`. -/
def commandArgs (file : Bytes) : List Bytes := commandLoop (fgetsAll MAX_ARG_LENGTH file) 1

/-! ## Storing arguments -/

/-- The lines of the field: the program name and the arguments. -/
def encodeArgs (args : List Bytes) : Bytes := (ascii "recovery" :: args).flatMap (· ++ [10])

/-- The loop that appends the arguments to the field. -/
def appendArgs : List Bytes → Bytes → Bytes
  | [], b => b
  | arg :: args, b => appendArgs args (strlcat (strlcat b arg) [10])

/-- The message that `get_args` writes: the arguments go into the field as it
was left by reading it. -/
def storedRecovery (left : Bytes) (args : List Bytes) : Bytes :=
  appendArgs args (strlcpy left (ascii "recovery" ++ [10]))

theorem strlcat_length (b src : Bytes) :
    (strlcat b src).length = b.length := by
  have hle := cstr_length_le b
  unfold strlcat
  split
  · rfl
  · simp only [List.length_append, List.length_cons, List.length_drop, List.length_take]
    omega

theorem appendArgs_length (args : List Bytes) : ∀ b : Bytes,
    (appendArgs args b).length = b.length := by
  induction args with
  | nil => exact fun _ => rfl
  | cons arg args ih =>
    intro b
    rw [appendArgs, ih, strlcat_length, strlcat_length]

theorem storedRecovery_length {left : Bytes} (h : left.length = 1024) (args : List Bytes) :
    (storedRecovery left args).length = 1024 := by
  have hpos : 0 < left.length := by omega
  rw [storedRecovery, strlcpy, appendArgs_length, storeString_length hpos, h]

theorem bootTokens_left_length (m : BootloaderMessage) : (bootTokens m.recovery).2.length = 1024 := by
  have hterm : (terminated m.recovery).length = 1024 := by
    rw [terminated, List.length_set, m.recovery_length]
  unfold bootTokens
  cases hstep : strtokBuf [10] (terminated m.recovery) 0 with
  | none => exact hterm
  | some r =>
    obtain ⟨arg, b, pos⟩ := r
    have hb := (strtokBuf_some hstep).2.1
    simp only
    split
    · simp only [(strtokBufAll_spec (MAX_ARGS - 1) b pos).2.1]
      rw [hb, hterm]
    · rw [hb, hterm]

/-- `get_args` without arguments on the command line and without
`/tmp/.ignorebootmessage`: `argv[1..]` and the message that is written. `file`
is the command file, when it can be opened. -/
def get_args (boot : BootloaderMessage) (file : Option Bytes) :
    List Bytes × BootloaderMessage :=
  let args :=
    if (bootArgs boot).length + 1 ≤ 1 then
      match file with
      | some file => commandArgs file
      | none => bootArgs boot
    else bootArgs boot
  (args,
    { command := strlcpy boot.command (ascii "boot-recovery")
      status := boot.status
      recovery := storedRecovery (bootTokens boot.recovery).2 args
      command_length := by
        rw [strlcpy, storeString_length (by rw [boot.command_length]; omega), boot.command_length]
      status_length := boot.status_length
      recovery_length := storedRecovery_length (bootTokens_left_length boot) args })

/-! ## What is stored -/

/-- Arguments as they come from a message or from the command file. -/
structure ValidArgs (args : List Bytes) : Prop where
  nonempty : ∀ a ∈ args, a ≠ []
  line : ∀ a ∈ args, 10 ∉ a
  string : ∀ a ∈ args, 0 ∉ a
  count : args.length < MAX_ARGS

theorem ValidArgs.nil : ValidArgs [] := by
  refine ⟨?_, ?_, ?_, by decide⟩ <;> simp

theorem encodeArgs_length (args : List Bytes) :
    (encodeArgs args).length = 9 + (args.map (·.length + 1)).sum := by
  have hname : (ascii "recovery").length = 8 := by decide
  rw [encodeArgs, List.flatMap_cons, List.length_append, List.length_append, hname]
  congr 1
  induction args with
  | nil => rfl
  | cons a args ih =>
    rw [List.flatMap_cons, List.length_append, ih, List.map_cons, List.sum_cons]
    simp

theorem zero_notMem_lines {args : List Bytes} (h : ∀ a ∈ args, 0 ∉ a) :
    0 ∉ args.flatMap (· ++ [10]) := by
  intro hmem
  obtain ⟨a, ha, h0⟩ := List.mem_flatMap.mp hmem
  rcases List.mem_append.mp h0 with h0 | h0
  · exact h a ha h0
  · simp at h0

/-- The loop stores the lines of all the arguments. -/
theorem appendArgs_storeString {left : Bytes} (hleft : 0 < left.length) (args : List Bytes) :
    ∀ s : Bytes, 0 ∉ s → (∀ a ∈ args, 0 ∉ a) →
      appendArgs args (storeString left s) = storeString left (s ++ args.flatMap (· ++ [10])) := by
  induction args with
  | nil =>
    intro s _ _
    rw [List.flatMap_nil, List.append_nil]
    rfl
  | cons arg args ih =>
    intro s hs hargs
    have harg : 0 ∉ arg := hargs arg (List.mem_cons_self ..)
    have hrest : ∀ a ∈ args, 0 ∉ a := fun a ha => hargs a (List.mem_cons_of_mem _ ha)
    have hs' : 0 ∉ s ++ arg := by simp [hs, harg]
    rw [appendArgs, strlcat_storeString hleft hs, strlcat_storeString hleft hs',
      ih _ (by simp [hs, harg]) hrest, List.flatMap_cons]
    simp only [List.append_assoc]

theorem storedRecovery_eq {left : Bytes} (hleft : left.length = 1024) {args : List Bytes}
    (hargs : ValidArgs args) : storedRecovery left args = storeString left (encodeArgs args) := by
  unfold storedRecovery strlcpy
  rw [appendArgs_storeString (by omega) args _ (by decide) hargs.string]
  rfl

/-! ## What is read -/

/-- The string that is read from the field. -/
def bootString (recovery : Bytes) : Bytes := cstr (terminated recovery)

theorem bootString_length_le {recovery : Bytes} (h : recovery.length = 1024) :
    (bootString recovery).length ≤ 1023 := by
  have hset : terminated recovery = recovery.take 1023 ++ 0 :: [] := by
    unfold terminated
    rw [List.set_eq_take_append_cons_drop, if_pos (by omega), List.drop_eq_nil_of_le (by omega)]
  have hpre : bootString recovery <+: recovery.take 1023 := by
    unfold bootString cstr
    rw [hset, List.takeWhile_append]
    split
    · simp
    · exact List.takeWhile_prefix _
  refine le_trans hpre.length_le ?_
  rw [List.length_take]
  omega

/-- The tokens of the field are those of its string, when the first one is the
program name. From the end of the string on the field stays as it is. -/
theorem bootTokens_spec (recovery : Bytes) :
    (bootTokens recovery).1 =
        (match strtokAll [10] MAX_ARGS (bootString recovery) with
          | [] => []
          | arg :: args => if arg = ascii "recovery" then arg :: args else []) ∧
      (bootTokens recovery).2.drop (bootString recovery).length =
        (terminated recovery).drop (bootString recovery).length := by
  unfold bootTokens bootString
  cases hstep : strtokBuf [10] (terminated recovery) 0 with
  | none =>
    have hnone := strtokBuf_none hstep
    rw [List.drop_zero] at hnone
    refine ⟨?_, rfl⟩
    rw [show MAX_ARGS = 99 + 1 from rfl, strtokAll, hnone]
  | some r =>
    obtain ⟨arg, b, pos⟩ := r
    obtain ⟨htok, -, hend, hdrop⟩ := strtokBuf_some hstep
    simp only [List.drop_zero, Nat.zero_add] at htok hend hdrop
    obtain ⟨hall, -, hdrop'⟩ := @strtokBufAll_spec [10] (MAX_ARGS - 1) b pos
    rw [show MAX_ARGS = 99 + 1 from rfl, strtokAll, htok]
    simp only
    split
    · refine ⟨congrArg (arg :: ·) hall, ?_⟩
      rw [hend, hdrop] at hdrop'
      exact hdrop'
    · exact ⟨rfl, hdrop⟩

theorem bootArgs_eq (m : BootloaderMessage) :
    bootArgs m = (match strtokAll [10] MAX_ARGS (bootString m.recovery) with
      | [] => []
      | arg :: args => if arg = ascii "recovery" then args else []) := by
  rw [bootArgs, (bootTokens_spec m.recovery).1]
  split
  · rfl
  · split
    · rfl
    · rfl

theorem bootArgs_valid (m : BootloaderMessage) : ValidArgs (bootArgs m) := by
  rw [bootArgs_eq]
  split
  · exact .nil
  · rename_i arg args htok
    split
    · have hmem : ∀ a ∈ args, a ∈ strtokAll [10] MAX_ARGS (bootString m.recovery) := by
        intro a ha
        rw [htok]
        exact List.mem_cons_of_mem _ ha
      have hlen := strtokAll_length_le [10] (bootString m.recovery) MAX_ARGS
      rw [htok, List.length_cons] at hlen
      refine ⟨fun a ha => (mem_strtokAll (hmem a ha)).1, fun a ha h10 => ?_, fun a ha h0 => ?_,
        hlen⟩
      · exact (mem_strtokAll (hmem a ha)).2.1 10 h10 (by simp)
      · exact zero_notMem_cstr _ ((mem_strtokAll (hmem a ha)).2.2 0 h0)
    · exact .nil

/-- Arguments that are taken from a message fit into one. -/
theorem encodeArgs_bootArgs_length_le (m : BootloaderMessage) :
    (encodeArgs (bootArgs m)).length ≤ 1024 := by
  have hstring := bootString_length_le m.recovery_length
  rw [encodeArgs_length, bootArgs_eq]
  split
  · simp
  · rename_i arg args htok
    split
    · rename_i hname
      have htotal := strtokAll_total_length_le [10] (bootString m.recovery) MAX_ARGS
      have hlen : arg.length = 8 := by rw [hname]; decide
      rw [htok, List.map_cons, List.sum_cons, hlen] at htotal
      omega
    · simp

theorem commandLoop_valid (lines : List Bytes) : ∀ argc : Nat,
    (∀ a ∈ commandLoop lines argc, a ≠ [] ∧ 10 ∉ a ∧ 0 ∉ a) ∧
      (0 < (commandLoop lines argc).length →
        (commandLoop lines argc).length + argc ≤ MAX_ARGS) := by
  induction lines with
  | nil =>
    intro argc
    simp [commandLoop]
  | cons line lines ih =>
    intro argc
    simp only [commandLoop]
    split
    · rename_i hlt
      split
      · rename_i token rest hstep
        obtain ⟨hne, hdelim, -⟩ := strtok_spec hstep
        have hmem : token ∈ strtokAll [13, 10] 1 (cstr line) := by
          simp [strtokAll, hstep]
        obtain ⟨hall, hcount⟩ := ih (argc + 1)
        refine ⟨?_, ?_⟩
        · intro a ha
          rcases List.mem_cons.mp ha with rfl | ha
          · refine ⟨hne, fun h10 => hdelim 10 h10 (by simp), fun h0 => ?_⟩
            exact zero_notMem_cstr _ ((mem_strtokAll hmem).2.2 0 h0)
          · exact hall a ha
        · intro _
          rw [List.length_cons]
          rcases Nat.eq_zero_or_pos (commandLoop lines (argc + 1)).length with hzero | hpos
          · omega
          · have := hcount hpos
            omega
      · exact ih argc
    · simp

theorem commandArgs_valid (file : Bytes) : ValidArgs (commandArgs file) := by
  obtain ⟨hall, hcount⟩ := commandLoop_valid (fgetsAll MAX_ARG_LENGTH file) 1
  refine ⟨fun a ha => (hall a ha).1, fun a ha => (hall a ha).2.1, fun a ha => (hall a ha).2.2, ?_⟩
  unfold commandArgs
  rcases Nat.eq_zero_or_pos (commandLoop (fgetsAll MAX_ARG_LENGTH file) 1).length with hzero | hpos
  · rw [hzero]
    decide
  · have := hcount hpos
    omega

/-! ## There and back -/

/-- The last byte of the field is zero after reading it. -/
theorem bootTokens_left_last (m : BootloaderMessage) : (bootTokens m.recovery).2[1023]? = some 0 := by
  have hlen := bootTokens_left_length m
  have hdrop := (bootTokens_spec m.recovery).2
  have hle := bootString_length_le m.recovery_length
  have hsum : (bootString m.recovery).length + (1023 - (bootString m.recovery).length) = 1023 := by
    omega
  rw [← hsum, ← List.getElem?_drop, hdrop, List.getElem?_drop, hsum, terminated,
    List.getElem?_set_self (by rw [m.recovery_length]; omega)]

theorem storeString_last {left s : Bytes} (hlen : left.length = 1024) (hlast : left[1023]? = some 0) :
    (storeString left s)[1023]? = some 0 := by
  unfold storeString
  rw [hlen]
  have hcut : (s.take (1024 - 1)).length ≤ 1023 := by
    rw [List.length_take]
    omega
  rw [List.getElem?_append_right hcut]
  rcases Nat.eq_or_lt_of_le hcut with heq | hlt
  · rw [heq]
    rfl
  · obtain ⟨k, hk⟩ : ∃ k, 1023 - (s.take (1024 - 1)).length = k + 1 :=
      ⟨1023 - (s.take (1024 - 1)).length - 1, by omega⟩
    rw [hk, List.getElem?_cons_succ, List.getElem?_drop,
      show (s.take (1024 - 1)).length + 1 + k = 1023 by omega]
    exact hlast

theorem terminated_of_last {r : Bytes} (h : r[1023]? = some 0) : terminated r = r := by
  unfold terminated
  obtain ⟨hlt, hval⟩ := List.getElem?_eq_some_iff.mp h
  conv_rhs => rw [← List.set_getElem_self hlt]
  rw [hval]

/-- Storing a string that is stored already changes nothing. -/
theorem storeString_storeString {b : Bytes} (hb : 0 < b.length) (s : Bytes) :
    storeString (storeString b s) s = storeString b s := by
  have hlen := storeString_length hb s
  have hdef : storeString (storeString b s) s = s.take ((storeString b s).length - 1) ++
      0 :: (storeString b s).drop ((s.take ((storeString b s).length - 1)).length + 1) := rfl
  rw [hdef, hlen]
  unfold storeString
  congr 2
  rw [← List.singleton_append, ← List.append_assoc, List.drop_append, List.drop_eq_nil_of_le,
    List.nil_append]
  · simp
  · simp

section RoundTrip

variable {args : List Bytes}

/-- The tokens of arguments that fit, cut to the size of the field. -/
theorem strtokAll_encodeArgs (hargs : ValidArgs args) (hfit : (encodeArgs args).length ≤ 1024) :
    strtokAll [10] MAX_ARGS ((encodeArgs args).take 1023) = ascii "recovery" :: args := by
  have hcount := hargs.count
  have htoken : ∀ t ∈ ascii "recovery" :: args, t ≠ [] ∧ ∀ c ∈ t, c ∉ ([10] : Bytes) := by
    intro t ht
    rcases List.mem_cons.mp ht with rfl | ht
    · exact ⟨by decide +kernel, by decide +kernel⟩
    · refine ⟨hargs.nonempty t ht, fun c hc hmem => ?_⟩
      rw [List.mem_singleton.mp hmem] at hc
      exact hargs.line t ht hc
  rcases Nat.lt_or_ge 1023 (encodeArgs args).length with hlong | hshort
  · -- Only the end of the last line is cut off.
    obtain ⟨init, last, hsplit⟩ : ∃ init last, ascii "recovery" :: args = init ++ [last] :=
      ⟨_, _, (List.dropLast_append_getLast (List.cons_ne_nil _ _)).symm⟩
    have hlen : init.length = args.length := by
      have := congrArg List.length hsplit
      simp only [List.length_cons, List.length_append, List.length_nil] at this
      omega
    have henc : encodeArgs args = (init.flatMap (· ++ [10]) ++ last) ++ [10] := by
      rw [encodeArgs, hsplit, List.flatMap_append]
      simp
    have hcut : (encodeArgs args).take 1023 = init.flatMap (· ++ [10]) ++ last := by
      have hl := congrArg List.length henc
      rw [List.length_append, List.length_singleton] at hl
      rw [henc, List.take_left' (by omega)]
    rw [hcut, hsplit]
    exact strtokAll_encoded_last (List.mem_singleton.mpr rfl) (hsplit ▸ htoken) (by omega)
  · rw [List.take_of_length_le hshort]
    exact strtokAll_encoded (List.mem_singleton.mpr rfl) htoken (by simpa using hcount)

/-- A field that holds the arguments, cut to its size. -/
structure HoldsArgs (recovery : Bytes) (args : List Bytes) : Prop where
  length : recovery.length = 1024
  last : recovery[1023]? = some 0
  stored : recovery = storeString recovery (encodeArgs args)

theorem zero_notMem_encodeArgs (hargs : ValidArgs args) : 0 ∉ encodeArgs args := by
  refine zero_notMem_lines fun a ha => ?_
  rcases List.mem_cons.mp ha with rfl | ha
  · decide
  · exact hargs.string a ha

/-- `get_args` leaves a field that holds its arguments. -/
theorem get_args_holdsArgs {boot : BootloaderMessage} {file : Option Bytes}
    (hargs : ValidArgs (get_args boot file).1) :
    HoldsArgs (get_args boot file).2.recovery (get_args boot file).1 := by
  have hlen := bootTokens_left_length boot
  have heq : (get_args boot file).2.recovery =
      storeString (bootTokens boot.recovery).2 (encodeArgs (get_args boot file).1) :=
    storedRecovery_eq hlen hargs
  refine ⟨(get_args boot file).2.recovery_length, ?_, ?_⟩
  · rw [heq]
    exact storeString_last hlen (bootTokens_left_last boot)
  · rw [heq, storeString_storeString (by omega)]

/-- Arguments that fit are found again. -/
theorem bootArgs_encodeArgs {m : BootloaderMessage} (hargs : ValidArgs args)
    (hfit : (encodeArgs args).length ≤ 1024) (h : HoldsArgs m.recovery args) :
    bootArgs m = args := by
  have hstring : bootString m.recovery = (encodeArgs args).take 1023 := by
    rw [bootString, terminated_of_last h.last, h.stored,
      cstr_storeString (zero_notMem_encodeArgs hargs), h.length]
  rw [bootArgs_eq, hstring, strtokAll_encodeArgs hargs hfit]
  simp

/-- Reading the arguments and storing them again leaves the field as it is. -/
theorem HoldsArgs.store_again {m : BootloaderMessage} (hargs : ValidArgs args)
    (h : HoldsArgs m.recovery args) :
    storedRecovery (bootTokens m.recovery).2 args = m.recovery := by
  have hlen := bootTokens_left_length m
  have hstring : bootString m.recovery = (encodeArgs args).take 1023 := by
    rw [bootString, terminated_of_last h.last, h.stored,
      cstr_storeString (zero_notMem_encodeArgs hargs), h.length]
  have hdrop := (bootTokens_spec m.recovery).2
  rw [terminated_of_last h.last, hstring] at hdrop
  have hcongr : storeString (bootTokens m.recovery).2 (encodeArgs args) =
      storeString m.recovery (encodeArgs args) :=
    storeString_congr (by rw [hlen, h.length]) (by rw [hlen]; exact hdrop)
  rw [storedRecovery_eq hlen hargs, hcongr]
  exact h.stored.symm

theorem strlcpy_strlcpy {b : Bytes} (hb : 0 < b.length) (s : Bytes) :
    strlcpy (strlcpy b s) s = strlcpy b s :=
  storeString_storeString hb s

theorem get_args_valid (boot : BootloaderMessage) (file : Option Bytes) :
    ValidArgs (get_args boot file).1 := by
  unfold get_args
  simp only
  split
  · cases file with
    | some file => exact commandArgs_valid file
    | none => exact bootArgs_valid boot
  · exact bootArgs_valid boot

/-- Running `get_args` on the message it wrote, when the arguments fit: there
are the same arguments, and the message stays as it is. Without arguments the
command file is read again. -/
theorem get_args_again {boot : BootloaderMessage} {file next : Option Bytes}
    (hfit : (encodeArgs (get_args boot file).1).length ≤ 1024)
    (hnext : (get_args boot file).1 = [] → ∀ f, next = some f → commandArgs f = []) :
    get_args (get_args boot file).2 next = get_args boot file := by
  have hvalid := get_args_valid boot file
  have hholds := get_args_holdsArgs hvalid
  have hboot := bootArgs_encodeArgs hvalid hfit hholds
  generalize hr : get_args boot file = r at *
  have hcommand : strlcpy r.2.command (ascii "boot-recovery") = r.2.command := by
    rw [← hr]
    exact strlcpy_strlcpy (by rw [boot.command_length]; omega) _
  have hargs : (get_args r.2 next).1 = r.1 := by
    unfold get_args
    simp only [hboot]
    split
    · rename_i hle
      have hnil : r.1 = [] := List.eq_nil_of_length_eq_zero (by omega)
      cases next with
      | none => rfl
      | some f => rw [hnil]; exact hnext hnil f rfl
    · rfl
  refine Prod.ext hargs (BootloaderMessage.ext hcommand rfl ?_)
  have hstore : (get_args r.2 next).2.recovery =
      storedRecovery (bootTokens r.2.recovery).2 (get_args r.2 next).1 := rfl
  rw [hstore, hargs]
  exact hholds.store_again hvalid

/-- The arguments of a command file survive: when `get_args` has taken them from
the file, running it again on the message it wrote gives the same arguments and
the same message. The file may be there or not; where it has arguments, anything
may have happened to it. -/
def RoundTrips (file : Bytes) : Prop :=
  ∀ boot : BootloaderMessage, bootArgs boot = [] → ∀ next : Option Bytes,
    (commandArgs file ≠ [] ∨ next = some file ∨ next = none) →
    get_args (get_args boot (some file)).2 next = (commandArgs file, (get_args boot (some file)).2)

theorem get_args_of_command {boot : BootloaderMessage} (h : bootArgs boot = []) (file : Bytes) :
    (get_args boot (some file)).1 = commandArgs file := by
  unfold get_args
  simp [h]

/-- The arguments of a command file survive exactly when, with the line of the
program name, they fit into the field; the end of the last line need not. -/
theorem get_args_roundtrip_iff (file : Bytes) :
    RoundTrips file ↔ (encodeArgs (commandArgs file)).length ≤ 1024 := by
  constructor
  · intro h
    have hzero : bootArgs zeroMessage = [] := by decide
    have hrun := congrArg Prod.fst (h zeroMessage hzero none (.inr (.inr rfl)))
    have hboot : bootArgs (get_args zeroMessage (some file)).2 = commandArgs file := by
      refine Eq.trans ?_ hrun
      unfold get_args
      simp
    rw [← hboot]
    exact encodeArgs_bootArgs_length_le _
  · intro hfit boot hboot next hnext
    have hargs := get_args_of_command hboot file
    rw [get_args_again (by rw [hargs]; exact hfit) ?_, ← hargs]
    rw [hargs]
    rintro hnil f rfl
    rcases hnext with hne | hsame | hnone
    · exact absurd hnil hne
    · rw [Option.some.inj hsame, hnil]
    · cases hnone

/-- A package whose path has 1000 letters. -/
def longPackage : Bytes := ascii "--update_package=" ++ List.replicate 1000 97

/-- The path of the package is cut off on the way through the message. -/
theorem get_args_cuts_package :
    commandArgs (longPackage ++ [10]) = [longPackage] ∧
      (get_args (get_args zeroMessage (some (longPackage ++ [10]))).2 none).1 =
        [longPackage.take 1014] ∧
      ¬ RoundTrips (longPackage ++ [10]) := by
  have hargs : commandArgs (longPackage ++ [10]) = [longPackage] := by decide +kernel
  have hagain : (get_args (get_args zeroMessage (some (longPackage ++ [10]))).2 none).1 =
      [longPackage.take 1014] := by decide +kernel
  refine ⟨hargs, hagain, fun h => ?_⟩
  have hzero : bootArgs zeroMessage = [] := by decide
  have hrun := congrArg Prod.fst (h zeroMessage hzero none (.inr (.inr rfl)))
  rw [hagain, hargs] at hrun
  exact absurd hrun (by decide +kernel)

end RoundTrip

end BootableRecovery.Recovery
