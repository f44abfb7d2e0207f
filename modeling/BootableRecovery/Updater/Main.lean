import BootableRecovery.Updater.Functions

/-!
# `updater/updater.c`: the run of an update script

`main` parses the script of the package and evaluates it with the functions of `install.c`.
An error is sent through the pipe, line by line.

Main results:
* `update_stops`: the device and the pipe are left as they were at the first error, but for
  the message.
* `update_is_shown`: when the recovery reads the pipe as it was meant.
* `failed_checks_change_nothing`: an update that starts with checks, and fails in them, has
  changed nothing.
* `update_ends`: what a script and a system must be like for the updater not to crash.
-/

namespace BootableRecovery.Updater.Install
open Edify (Expr Parsed Lexer YYLTYPE parse StartsAnew)
open Edify.Eval Abortable CommandPipe

/-! ## `main` -/

/-- The package as `minzip` shows it: the error of `mzOpenZipArchive`, whether there is a
script, and what is read of it. -/
structure Package where
  err : Nat
  script_entry : Bool
  script : Option Bytes

section Source

variable {fmt : Formats} {D : Type} (sys : Sys D) (w : Nat)
  (find : Bytes → Option (Builtin InstallFn))

def SCRIPT_NAME : Bytes := ascii "META-INF/com/google/android/updater-script"

/-- What is sent of an error. -/
def report : Option Bytes → List (Line fmt)
  | none => [.ui_print (ascii "script aborted (no error message)")]
  | some errmsg => CommandPipe.UIPrintFn [errmsg]

/-- The end of `main` -/
def finish (s : World (UpdaterInfo fmt D)) : Option Bytes → Nat × World (UpdaterInfo fmt D)
  | some result => (0, s.emit (.stderr (ascii "script result was [" ++ result ++ ascii "]\n")))
  | none =>
    let text := s.errmsg.getD (ascii "(no error message)")
    let s := s.emit (.stderr (ascii "script aborted" ++ (if s.errmsg = none then [32] else
      ascii ": ") ++ text ++ [10]))
    (7, { s with cookie := ⟨s.cookie.cmd_pipe ++ report s.errmsg, s.cookie.device⟩ })

/-- `main` from the script on. `yy_scan_string` ends at the first NUL. -/
def runScript (g : Lexer) (script : Bytes) (s : World (UpdaterInfo fmt D)) :
    Outcome (Nat × World (UpdaterInfo fmt D)) := do
  let (p, _) ← parse find g (cstr script)
  if p.error ≠ 0 ∨ p.error_count > 0 then
    .done (6, s.emit (.stderr (printNat 10 p.error_count ++ ascii " parse errors\n")))
  else
    match p.root with
    | none => .fault
    | some root => do
      let (result, s) ← evaluateRoot w (cstr script) (call sys w) root s
      .done (finish s result)

def main (g : Lexer) (pkg : Package) (argv : List Bytes) (device : D) :
    Outcome (Nat × World (UpdaterInfo fmt D)) :=
  let s : World (UpdaterInfo fmt D) := ⟨⟨[], device⟩, none, []⟩
  match argv with
  | [_, version, _, package_data] =>
    if version ≠ ascii "1" ∧ version ≠ ascii "2" ∧ version ≠ ascii "3" then
      .done (2, s.emit (.stderr (ascii "wrong updater binary API; expected 1, 2, or 3; got " ++
        version ++ [10])))
    else if pkg.err ≠ 0 then
      .done (3, s.emit (.stderr (ascii "failed to open package " ++ package_data ++ ascii ": " ++
        sys.strerror pkg.err ++ [10])))
    else if !pkg.script_entry then
      .done (4, s.emit (.stderr (ascii "failed to find " ++ SCRIPT_NAME ++ ascii " in " ++
        package_data ++ [10])))
    else
      match pkg.script with
      | none => .done (5, s.emit (.stderr (ascii "failed to read script from package\n")))
      | some script => runScript sys w find g script s
  | _ => .done (1, s.emit (.stderr (ascii "unexpected number of arguments (" ++
      printNat 10 argv.length ++ ascii ")\n")))

end Source

/-! ## What a script keeps -/

section Keeping

variable {fmt : Formats} {D : Type} {sys : Sys D} {w : Nat} {script : Bytes}
  {P R : World (UpdaterInfo fmt D) → Prop} {allowed : Request → Prop}
  {root : Expr (Builtin InstallFn)}

/-- All requests of the calls in an expression are allowed. -/
def Within (allowed : Request → Prop) (root : Expr (Builtin InstallFn)) : Prop :=
  ∀ fn name argv loc, (Expr.node (.found (.other fn)) name argv loc).Within root →
    ∀ r, Makes fn r → allowed r

theorem within_all (root : Expr (Builtin InstallFn)) : Within (fun _ => True) root :=
  fun _ _ _ _ _ _ _ => trivial

theorem evaluate_serves (h : Serves sys allowed P R) (hall : Within allowed root) :
    Keeps P (EvaluateValue w script (call sys w) root) R True :=
  evaluateValue_keeps h.toAdmits root
    (fun fn name argv loc hin hargs =>
      call_keeps h hargs (hall fn name argv loc hin) (.inl trivial)) (.inl trivial)

theorem evaluateRoot_serves (h : Serves sys allowed P R) (hall : Within allowed root) :
    Keeps P (evaluateRoot w script (call sys w) root) R True :=
  evaluate_keeps h.toAdmits (evaluate_serves h hall)

theorem serves_stopped :
    Serves sys (fun _ => True) (Clean : World (UpdaterInfo fmt D) → Prop) Stopped where
  toAdmits := admits_stopped
  send _ _ hs := ⟨hs.log, hs.errmsg⟩
  request _ _ _ hs := ⟨hs.log, hs.errmsg⟩

/-- What is so of the pipe and the device stays so, if sending and the requests keep it. -/
theorem serves_cookie (sys : Sys D) (allowed : Request → Prop) (Q : UpdaterInfo fmt D → Prop)
    (hsend : ∀ info (c : CommandPipe.Call), Q info → Q ⟨info.cmd_pipe ++ c.lines, info.device⟩)
    (hrequest : ∀ r, allowed r → ∀ info, Q info →
      Q ⟨info.cmd_pipe, (sys.answer r info.device).2⟩) :
    Serves sys allowed (fun s => Q s.cookie) fun s => Q s.cookie where
  emit _ _ _ hs := hs
  abort _ _ hs := hs.elim id id
  giveUp _ hs := hs
  send s c hs := hsend s.cookie c hs
  request r hr s hs := hrequest r hr s.cookie hs

end Keeping

/-! ## Errors -/

section Results

variable {fmt : Formats} {D : Type} {sys : Sys D} {w : Nat}
  {find : Bytes → Option (Builtin InstallFn)} {g : Lexer}

/-- How `main` ends, with the state in front of its last message. -/
inductive Ends (sys : Sys D) (w : Nat) (s₀ : World (UpdaterInfo fmt D)) :
    Nat × World (UpdaterInfo fmt D) → Prop
  | early (status : Nat) (text : Bytes) (h0 : status ≠ 0) (h7 : status ≠ 7) :
    Ends sys w s₀ (status, s₀.emit (.stderr text))
  | evaluated {script : Bytes} {root : Expr (Builtin InstallFn)} {result : Option Bytes}
    {s : World (UpdaterInfo fmt D)}
    (h : evaluateRoot w script (call sys w) root s₀ = .done (result, s)) :
    Ends sys w s₀ (finish s result)

theorem runScript_ends {script : Bytes} {s₀ : World (UpdaterInfo fmt D)}
    {r : Nat × World (UpdaterInfo fmt D)} (h : runScript sys w find g script s₀ = .done r) :
    Ends sys w s₀ r := by
  obtain ⟨⟨p, g'⟩, -, h⟩ := Outcome.bind_eq_done.mp h
  dsimp only at h
  split at h
  · cases h
    exact .early 6 _ (by decide) (by decide)
  · cases hroot : p.root with
    | none =>
      rw [hroot] at h
      cases h
    | some root =>
      rw [hroot] at h
      obtain ⟨⟨result, s⟩, heval, h⟩ := Outcome.bind_eq_done.mp h
      cases h
      exact .evaluated heval

theorem main_ends {pkg : Package} {argv : List Bytes} {device : D}
    {r : Nat × World (UpdaterInfo fmt D)} (h : main sys w find g pkg argv device = .done r) :
    Ends sys w ⟨⟨[], device⟩, none, []⟩ r := by
  unfold main at h
  dsimp only at h
  split at h
  · split_ifs at h
    · cases h
      exact .early 2 _ (by decide) (by decide)
    · cases h
      exact .early 3 _ (by decide) (by decide)
    · cases h
      exact .early 4 _ (by decide) (by decide)
    · cases hscript : pkg.script with
      | none =>
        rw [hscript] at h
        cases h
        exact .early 5 _ (by decide) (by decide)
      | some script =>
        rw [hscript] at h
        exact runScript_ends h
  · cases h
    exact .early 1 _ (by decide) (by decide)

/-- How a failed update ends: `info` is the pipe and the device at the first error, and then
there were only messages, of which the last one is sent. -/
structure StoppedWith (s : World (UpdaterInfo fmt D)) : Prop where
  stopped : ∃ before msgs info text,
    s.log = before ++ msgs.map (Event.aborted · info) ++ [.stderr text] ∧
    (∀ ev ∈ before, ev.isAborted = false) ∧ msgs ≠ [] ∧
    s.cookie = ⟨info.cmd_pipe ++ report (msgs.filterMap id).getLast?, info.device⟩

theorem finish_none (s : World (UpdaterInfo fmt D)) : ∃ text, finish s none = (7,
    ⟨⟨s.cookie.cmd_pipe ++ report s.errmsg, s.cookie.device⟩, s.errmsg,
      s.log ++ [.stderr text]⟩) :=
  ⟨_, rfl⟩

theorem finish_stopped {s : World (UpdaterInfo fmt D)} (h : Stopped s) :
    (finish s none).1 = 7 ∧ StoppedWith (finish s none).2 := by
  obtain ⟨before, msgs, hlog, hbefore, hne, herrmsg⟩ := h.log
  obtain ⟨text, hfinish⟩ := finish_none s
  rw [hfinish]
  refine ⟨rfl, ⟨before, msgs, s.cookie, text, ?_, hbefore, hne, ?_⟩⟩
  · rw [← hlog]
  · rw [← herrmsg]

/-- The updater returns 0 only when there was no error, and 7 when the script failed; nothing
was asked of the device and nothing was sent behind the first error. With another status
nothing was done at all. -/
theorem update_stops {pkg : Package} {argv : List Bytes} {device : D} {status : Nat}
    {s : World (UpdaterInfo fmt D)} (h : main sys w find g pkg argv device = .done (status, s)) :
    (status = 0 → ∀ ev ∈ s.log, ev.isAborted = false) ∧ (status = 7 → StoppedWith s) ∧
      (status ≠ 0 → status ≠ 7 → s.cookie = ⟨[], device⟩) := by
  generalize hr : (status, s) = r at h
  cases main_ends h with
  | early status' text h0 h7 =>
    cases hr
    exact ⟨fun h => absurd h h0, fun h => absurd h h7, fun _ _ => rfl⟩
  | @evaluated script root result s₁ heval =>
    have hkeeps : Keeps Clean (evaluateRoot w script (call sys w) root : Work fmt D Bytes)
        Stopped True :=
      evaluateRoot_serves serves_stopped (within_all root)
    have hends := hkeeps ⟨⟨[], device⟩, none, []⟩ ⟨by simp, rfl⟩
    rw [heval] at hends
    cases result with
    | none =>
      obtain ⟨hstatus, hstopped⟩ := finish_stopped hends
      rw [← hr] at hstatus hstopped
      exact ⟨fun h => absurd (h.symm.trans hstatus) (by decide), fun _ => hstopped,
        fun _ h => absurd hstatus h⟩
    | some result =>
      cases hr
      refine ⟨fun _ => (admits_stopped.emit _ _ rfl hends).log, ?_, ?_⟩
      · exact fun h => absurd h (by decide)
      · exact fun h => absurd rfl h

def sampleScript : Bytes := ascii "abort();"

def sampleRoot : Expr (Builtin InstallFn) := .node (.found .AbortFn) (ascii "abort") [] ⟨0, 7⟩

theorem sampleScript_parse : ∃ g', parse (fun _ => some .AbortFn) .fresh (cstr sampleScript) =
    .done (⟨0, 0, some sampleRoot⟩, g') := ⟨_, rfl⟩

theorem sampleScript_run (s : World (UpdaterInfo halfFormats Nat)) :
    runScript sampleSys 32 (fun _ => some .AbortFn) .fresh sampleScript s =
      .done (finish (s.abort (ascii "called abort()")) none) := by
  obtain ⟨g', hparse⟩ := sampleScript_parse
  rw [runScript, hparse]
  rfl

/-- The world behind the sample -/
def sampleEnd : Nat × World (UpdaterInfo halfFormats Nat) :=
  finish ((⟨⟨[], 0⟩, none, []⟩ : World (UpdaterInfo halfFormats Nat)).abort
    (ascii "called abort()")) none

theorem sampleScript_main : main sampleSys 32 (fun _ => some .AbortFn) .fresh
    ⟨0, true, some sampleScript⟩ [ascii "updater", ascii "3", ascii "5", ascii "update.zip"] 0 =
      .done sampleEnd := sampleScript_run _

theorem update_stops_sample : StoppedWith sampleEnd.2 := (update_stops sampleScript_main).2.1 rfl

/-! ## The pipe -/

theorem report_printed (errmsg : Option Bytes) :
    ∀ l ∈ (report errmsg : List (Line fmt)), l.Printed := by
  intro l hl
  cases errmsg with
  | none =>
    rw [List.mem_singleton.mp hl]
    exact ⟨by decide, by decide⟩
  | some errmsg => exact (CommandPipe.Call.ui_print [errmsg]).lines_printed hl

theorem finish_pipe (s : World (UpdaterInfo fmt D)) (result : Option Bytes) :
    ∃ lines, (finish s result).2.cookie.cmd_pipe = s.cookie.cmd_pipe ++ lines ∧
      ∀ l ∈ lines, l.Printed := by
  cases result with
  | none => exact ⟨report s.errmsg, rfl, report_printed _⟩
  | some result => exact ⟨[], (List.append_nil _).symm, by simp⟩

/-- Whatever the script, the recovery carries out what the updater sent exactly when each line
fits into its buffer. -/
theorem update_is_shown {pkg : Package} {argv : List Bytes} {device : D} {status : Nat}
    {s : World (UpdaterInfo fmt D)} (h : main sys w find g pkg argv device = .done (status, s)) :
    readPipe none (pipe s.cookie.cmd_pipe) = .done (s.cookie.cmd_pipe.map Line.action, none) ↔
      ∀ l ∈ s.cookie.cmd_pipe, l.Fits := by
  refine readPipe_pipe_iff _ ?_ none
  generalize hr : (status, s) = r at h
  cases main_ends h with
  | early status' text h0 h7 =>
    cases hr
    simp [World.emit]
  | @evaluated script root result s₁ heval =>
    have hserves := serves_cookie sys (fun _ => True)
      (fun info : UpdaterInfo fmt D => ∀ l ∈ info.cmd_pipe, l.Printed)
      (fun info c hinfo l hl => (List.mem_append.mp hl).elim (hinfo l) c.lines_printed)
      fun r _ info hinfo => hinfo
    have hkeeps : Keeps _ (evaluateRoot w script (call sys w) root : Work fmt D Bytes) _ True :=
      evaluateRoot_serves hserves (within_all root)
    have hends := hkeeps ⟨⟨[], device⟩, none, []⟩ (by simp)
    have hpipe : ∀ l ∈ s₁.cookie.cmd_pipe, l.Printed := by
      rw [heval] at hends
      cases result <;> exact hends
    obtain ⟨lines, hfinish, hlines⟩ := finish_pipe s₁ result
    rw [show s = (finish s₁ result).2 from congrArg Prod.snd hr, hfinish]
    intro l hl
    rcases List.mem_append.mp hl with hl | hl
    · exact hpipe l hl
    · exact hlines l hl

theorem update_is_shown_sample :
    readPipe none (pipe sampleEnd.2.cookie.cmd_pipe) =
      .done (sampleEnd.2.cookie.cmd_pipe.map Line.action, none) ↔
        ∀ l ∈ sampleEnd.2.cookie.cmd_pipe, l.Fits :=
  update_is_shown sampleScript_main

/-! ## Checks -/

/-- The function only asks the device. -/
def AsksOnly (sys : Sys D) (fn : InstallFn) : Prop :=
  ∀ r, Makes fn r → ∀ d, (sys.answer r d).2 = d

/-- The script is `checks`, or goes on behind them. -/
inductive StartsWith (checks : Expr (Builtin InstallFn)) : Expr (Builtin InstallFn) → Prop
  | self : StartsWith checks checks
  | seq {e : Expr (Builtin InstallFn)} {name : Bytes} {argv : List (Expr (Builtin InstallFn))}
    {loc : YYLTYPE} (h : StartsWith checks e) :
    StartsWith checks (.node .SequenceFn name (e :: argv) loc)

theorem StartsWith.aborts {script : Bytes} {checks root : Expr (Builtin InstallFn)}
    (h : StartsWith checks root) {s s' : World (UpdaterInfo fmt D)}
    (hfail : EvaluateValue w script (call sys w) checks s = .done (none, s')) :
    EvaluateValue w script (call sys w) root s = .done (none, s') := by
  induction h with
  | self => exact hfail
  | seq _ ih =>
    rw [EvaluateValue, arguments]
    exact bind_apply_none ih _

/-- The typical script starts with assertions on the device and the files of the system. When
one of them fails, the update has changed nothing. -/
theorem failed_checks_change_nothing {script : Bytes} {p : Parsed (Builtin InstallFn)}
    {g' : Lexer} (hparse : parse find g (cstr script) = .done (p, g')) (herror : p.error = 0)
    (hcount : p.error_count = 0) {checks root : Expr (Builtin InstallFn)}
    (hroot : p.root = some root) (hstarts : StartsWith checks root)
    (hasks : ∀ fn name argv loc, (Expr.node (.found (.other fn)) name argv loc).Within checks →
      AsksOnly sys fn)
    {s s₁ : World (UpdaterInfo fmt D)}
    (hfail : EvaluateValue w (cstr script) (call sys w) checks s = .done (none, s₁)) :
    ∃ s', runScript sys w find g script s = .done (7, s') ∧
      s'.cookie.device = s.cookie.device := by
  have hserves := serves_cookie sys (fun r => ∀ d, (sys.answer r d).2 = d)
    (fun info : UpdaterInfo fmt D => info.device = s.cookie.device) (fun info c hinfo => hinfo)
    fun r hr info hinfo => (hr info.device).trans hinfo
  have hkeeps : Keeps _ (EvaluateValue w (cstr script) (call sys w) checks : Work fmt D _) _ True :=
    evaluate_serves hserves hasks
  have hdevice := hkeeps s rfl
  rw [hfail] at hdevice
  refine ⟨(finish s₁ none).2, ?_, hdevice⟩
  rw [runScript, hparse, Outcome.done_bind]
  dsimp only
  rw [if_neg (by simp [herror, hcount]), hroot]
  have heval : evaluateRoot w (cstr script) (call sys w) root s = .done (none, s₁) :=
    bind_apply_none (hstarts.aborts hfail) _
  dsimp only
  rw [heval, Outcome.done_bind]
  rfl

def checkScript : Bytes := ascii "assert(is_mounted(a));x"

def checkFind (name : Bytes) : Option (Builtin InstallFn) :=
  if name = ascii "assert" then some .AssertFn else some (.other .IsMountedFn)

/-- `is_mounted(a)` -/
def checkCall : Expr (Builtin InstallFn) :=
  .node (.found (.other .IsMountedFn)) (ascii "is_mounted")
    [.node .Literal (ascii "a") [] ⟨18, 19⟩] ⟨7, 20⟩

def checkAssert : Expr (Builtin InstallFn) :=
  .node (.found .AssertFn) (ascii "assert") [checkCall] ⟨0, 21⟩

def checkRoot : Expr (Builtin InstallFn) :=
  .node .SequenceFn (ascii "(operator)") [checkAssert, .node .Literal (ascii "x") [] ⟨22, 23⟩]
    ⟨0, 23⟩

theorem checkScript_parse : ∃ g', parse checkFind .fresh (cstr checkScript) =
    .done (⟨0, 0, some checkRoot⟩, g') := ⟨_, rfl⟩

theorem checkAssert_calls {fn : InstallFn} {name : Bytes}
    {argv : List (Expr (Builtin InstallFn))} {loc : YYLTYPE}
    (h : (Expr.node (.found (.other fn)) name argv loc).Within checkAssert) :
    fn = .IsMountedFn := by
  generalize hx : Expr.node (.found (.other fn)) name argv loc = x at h
  cases h with
  | self => cases hx
  | arg ha h =>
    obtain rfl := List.mem_singleton.mp ha
    cases h with
    | self =>
      cases hx
      rfl
    | arg hb h =>
      obtain rfl := List.mem_singleton.mp hb
      cases h with
      | self => cases hx
      | arg hc _ => cases hc

theorem failed_checks_change_nothing_sample : ∃ s' : World (UpdaterInfo halfFormats Nat),
    runScript sampleSys 32 checkFind .fresh checkScript ⟨⟨[], 5⟩, none, []⟩ = .done (7, s') ∧
      s'.cookie.device = 5 := by
  obtain ⟨g', hparse⟩ := checkScript_parse
  obtain ⟨s₁, hfail⟩ : ∃ s₁, EvaluateValue 32 (cstr checkScript) (call sampleSys 32) checkAssert
      (⟨⟨[], 5⟩, none, []⟩ : World (UpdaterInfo halfFormats Nat)) = .done (none, s₁) := ⟨_, rfl⟩
  refine failed_checks_change_nothing hparse rfl rfl rfl (.seq .self)
    (fun fn _ _ _ hin r hr d => ?_) hfail
  rw [checkAssert_calls hin] at hr
  cases r <;> first | rfl | exact hr.elim

/-! ## Faults -/

/-- A script whose calls have the arguments that the functions index, and where no error
comes up where a function does not expect one, ends. -/
theorem update_ends {script : Bytes} {p : Parsed (Builtin InstallFn)} {g' : Lexer}
    (h : StartsAnew find g (cstr script)) (hparse : parse find g (cstr script) = .done (p, g'))
    {root : Expr (Builtin InstallFn)} (hroot : p.root = some root)
    (hargs : ∀ f name argv loc, (Expr.node (.found f) name argv loc).Within root →
      arity (.found f) ≤ argv.length)
    (hsafe : ∀ fn name argv loc, (Expr.node (.found (.other fn)) name argv loc).Within root →
      Safe sys fn (arguments w (cstr script) (call sys w) argv : List (Argument fmt D)))
    (s : World (UpdaterInfo fmt D)) :
    ∃ status s', runScript sys w find g script s = .done (status, s') := by
  have hserves : Serves sys (fun _ => True) (fun _ : World (UpdaterInfo fmt D) => True)
      fun _ => True := ⟨admits_true, fun _ _ _ => trivial, fun _ _ _ _ => trivial⟩
  obtain ⟨ts, -, hrange⟩ := StartsAnew.ranges h hparse hroot
  have hreturns : Returns (evaluateRoot w (cstr script) (call sys w) root : Work fmt D Bytes) :=
    evaluateRoot_keeps admits_true root
      (fun fn name argv loc hin hkeeps => call_keeps hserves hkeeps
        (within_all root fn name argv loc hin) (.inr (hsafe fn name argv loc hin)))
      (.inr (parsed_ready hrange hargs))
  obtain ⟨result, s', heval⟩ := hreturns.done s
  rw [runScript, hparse, Outcome.done_bind]
  dsimp only
  split
  · exact ⟨_, _, rfl⟩
  · rw [hroot]
    dsimp only
    rw [heval, Outcome.done_bind]
    exact ⟨_, _, rfl⟩

def deleteScript : Bytes := ascii "delete(a);"

def deleteFind (_ : Bytes) : Option (Builtin InstallFn) := some (.other .DeleteFn)

def deleteRoot : Expr (Builtin InstallFn) :=
  .node (.found (.other .DeleteFn)) (ascii "delete") [.node .Literal (ascii "a") [] ⟨7, 8⟩] ⟨0, 9⟩

theorem deleteScript_parse : ∃ g', parse deleteFind .fresh (cstr deleteScript) =
    .done (⟨0, 0, some deleteRoot⟩, g') := ⟨_, rfl⟩

theorem deleteScript_anew : StartsAnew deleteFind .fresh (cstr deleteScript) := by
  obtain ⟨ts, g', hts, hbad, hcomma⟩ : ∃ ts g',
      Edify.tokens .fresh (cstr deleteScript) = .done (ts, g') ∧
      (∀ x ∈ ts, x.1 ≠ .BAD) ∧ ∀ x ∈ ts, x.1 ≠ .comma := ⟨_, _, rfl, by decide, by decide⟩
  have honly := Edify.tokensOnly_eq hts
  refine ⟨rfl, rfl, fun ts' hts' loc hmem => ?_, fun ts' p hts' _ => .inl ?_⟩
  · obtain rfl := Outcome.done.inj (honly.symm.trans hts')
    exact hbad _ hmem rfl
  · obtain rfl := Outcome.done.inj (honly.symm.trans hts')
    rintro a b l₀ l₁ rfl
    exact hcomma (.comma, l₁) (by simp) rfl

theorem deleteRoot_calls {fn : Builtin InstallFn} {name : Bytes}
    {argv : List (Expr (Builtin InstallFn))} {loc : YYLTYPE}
    (h : (Expr.node (.found fn) name argv loc).Within deleteRoot) :
    fn = .other .DeleteFn ∧ argv.length = 1 := by
  generalize hx : Expr.node (.found fn) name argv loc = x at h
  cases h with
  | self =>
    cases hx
    exact ⟨rfl, rfl⟩
  | arg ha h =>
    obtain rfl := List.mem_singleton.mp ha
    cases h with
    | self => cases hx
    | arg hb _ => cases hb

theorem update_ends_sample : ∃ status s', runScript sampleSys 32 deleteFind .fresh deleteScript
    (⟨⟨[], 0⟩, none, []⟩ : World (UpdaterInfo halfFormats Nat)) = .done (status, s') := by
  obtain ⟨g', hparse⟩ := deleteScript_parse
  refine update_ends deleteScript_anew hparse rfl (fun f _ _ _ hin => ?_)
    (fun fn _ argv _ hin => ?_) _
  · rw [(deleteRoot_calls hin).1]
    exact Nat.zero_le _
  · obtain ⟨hfn, hargc⟩ := deleteRoot_calls hin
    cases hfn
    obtain ⟨e, rfl⟩ := List.length_eq_one_iff.mp hargc
    exact fun a ha => absurd ha List.not_mem_nil

end Results

end BootableRecovery.Updater.Install
