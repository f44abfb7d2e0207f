import BootableRecovery.Edify.Print

/-!
# The programs that run a script: `edifyscripting.c` and `updater/updater.c`

`run_script_from_buffer` and `edify_main` of the recovery and `main` of the updater
parse a text and then evaluate what the parser left in `root`. The recovery and the
updater register different functions, so that each has its own `FindFunction`.

Main result:
* `drivers_iff`: for which texts a broken script is refused by all three and any
  other script is evaluated as a whole by all three.
-/

namespace BootableRecovery.Edify

variable {F : Type}

/-- What a driver did: the expression it evaluated, if it evaluated any, and what it
returned. The expression is `none` when `root` was not initialised. -/
structure Driven (F : Type) where
  evaluated : Option (Option (Expr F))
  ret : Int

/-- `yyparse` failed or counted an error. -/
def Parsed.reportsError (p : Parsed F) : Prop := p.error ≠ 0 ∨ p.error_count > 0

instance (p : Parsed F) : Decidable p.reportsError :=
  inferInstanceAs (Decidable (_ ∨ _))

section Drivers

variable (find : Bytes → Option F) (evaluate : Option (Expr F) → Option Bytes) (g : Lexer)
  (script : Bytes)

/-- `run_script_from_buffer`; `evaluate` is what `Evaluate` returns. -/
def run_script_from_buffer : Outcome (Driven F) := do
  let (p, _) ← parse find g script
  if p.error = 0 ∨ p.error_count > 0 then
    .done ⟨some p.root, if (evaluate p.root).isNone then -1 else 0⟩
  else .done ⟨none, 0⟩

/-- `edify_main` on a file with the text `script`, of which it reads 8191 bytes. -/
def edify_main : Outcome (Driven F) := do
  let (p, _) ← parse find g (script.take 8191)
  if p.error = 0 ∨ p.error_count > 0 then .done ⟨some p.root, 0⟩ else .done ⟨none, 0⟩

/-- `main` of the updater, from the script in the package on. `yy_scan_string` ends at
the first NUL. -/
def updater_main : Outcome (Driven F) := do
  let (p, _) ← parse find g (cstr script)
  if p.error ≠ 0 ∨ p.error_count > 0 then .done ⟨none, 6⟩
  else .done ⟨some p.root, if (evaluate p.root).isNone then 7 else 0⟩

/-- The text is parsed without an error and leaves `root`. -/
def ParsesClean (root : Option (Expr F)) : Prop :=
  ∃ g', parse find g script = .done (⟨0, 0, root⟩, g')

/-- What is expected of a driver that hands `text` to the parser: on an error it
evaluates nothing and returns a failure, else it evaluates the whole script. -/
def DriverMeets (text : Bytes) (driver : Outcome (Driven F)) : Prop :=
  ∃ p g' d, parse find g text = .done (p, g') ∧ driver = .done d ∧
    (p.reportsError → d.evaluated = none ∧ d.ret ≠ 0) ∧
    (¬p.reportsError → ∃ root, ParsesClean find g script root ∧ d.evaluated = some root)

end Drivers

/-- No driver evaluates a broken script or a part of one, and all three take the same
decision. -/
structure SafeDrivers (recovery updater : Bytes → Option F)
    (evaluate evaluate' : Option (Expr F) → Option Bytes) (g : Lexer) (script : Bytes) : Prop where
  meets_buffer : DriverMeets recovery g script script
    (run_script_from_buffer recovery evaluate g script)
  meets_edify : DriverMeets recovery g script (script.take 8191) (edify_main recovery g script)
  meets_updater : DriverMeets updater g script (cstr script)
    (updater_main updater evaluate' g script)
  same : ∀ d₁ d₂ d₃, run_script_from_buffer recovery evaluate g script = .done d₁ →
    edify_main recovery g script = .done d₂ → updater_main updater evaluate' g script = .done d₃ →
    d₁.evaluated.isSome = d₂.evaluated.isSome ∧ d₂.evaluated.isSome = d₃.evaluated.isSome

variable {find : Bytes → Option F} {g : Lexer} {script : Bytes}

theorem parse_error {p : Parsed F} {g' : Lexer} (h : parse find g script = .done (p, g')) :
    p.error ≠ 0 → 0 < p.error_count := by
  obtain ⟨x, _, hparse⟩ := Outcome.bind_eq_done.mp h
  obtain ⟨p', hp', hdone⟩ := Outcome.bind_eq_done.mp hparse
  cases hdone
  exact yyparse_error hp'

theorem Parsed.not_reportsError {p : Parsed F} (h : ¬p.reportsError) : p = ⟨0, 0, p.root⟩ := by
  obtain ⟨error, error_count, root⟩ := p
  have herror : error = 0 := by_contra fun h' => h (.inl h')
  have hcount : error_count = 0 := by_contra fun h' => h (.inr (Nat.pos_of_ne_zero h'))
  rw [herror, hcount]

/-- The test of the recovery's drivers always succeeds: where `yyparse` fails, an error
was counted. -/
theorem recovery_test {p : Parsed F} {g' : Lexer} (h : parse find g script = .done (p, g')) :
    p.error = 0 ∨ p.error_count > 0 := by
  by_cases h0 : p.error = 0
  · exact .inl h0
  · exact .inr (parse_error h h0)

theorem run_script_from_buffer_eq {evaluate : Option (Expr F) → Option Bytes} {p : Parsed F}
    {g' : Lexer} (h : parse find g script = .done (p, g')) :
    run_script_from_buffer find evaluate g script =
      .done ⟨some p.root, if (evaluate p.root).isNone then -1 else 0⟩ := by
  simp only [run_script_from_buffer, h, Outcome.done_bind, if_pos (recovery_test h)]

theorem edify_main_eq {p : Parsed F} {g' : Lexer}
    (h : parse find g (script.take 8191) = .done (p, g')) :
    edify_main find g script = .done ⟨some p.root, 0⟩ := by
  simp only [edify_main, h, Outcome.done_bind, if_pos (recovery_test h)]

theorem updater_main_eq {evaluate : Option (Expr F) → Option Bytes} {p : Parsed F}
    {g' : Lexer} (h : parse find g (cstr script) = .done (p, g')) :
    updater_main find evaluate g script =
      .done (if p.reportsError then ⟨none, 6⟩
        else ⟨some p.root, if (evaluate p.root).isNone then 7 else 0⟩) := by
  simp only [updater_main, h, Outcome.done_bind]
  by_cases hr : p.reportsError
  · rw [if_pos hr]
    exact if_pos hr
  · rw [if_neg hr]
    exact if_neg hr

/-- A driver that evaluates whatever it parsed meets the contract only on a text without
an error that says the same as the whole script. -/
theorem DriverMeets.of_evaluated {text : Bytes} {driver : Outcome (Driven F)} {p : Parsed F}
    {g' : Lexer} {d : Driven F} (h : DriverMeets find g script text driver)
    (hp : parse find g text = .done (p, g')) (hd : driver = .done d)
    (heval : d.evaluated = some p.root) :
    ParsesClean find g text p.root ∧ ParsesClean find g script p.root := by
  obtain ⟨p', g'', d', hp', hd', herror, hclean⟩ := h
  obtain ⟨rfl, rfl⟩ := Prod.mk.inj (Outcome.done.inj (hp.symm.trans hp'))
  obtain rfl := Outcome.done.inj (hd.symm.trans hd')
  by_cases hr : p.reportsError
  · rw [(herror hr).1] at heval
    cases heval
  · obtain ⟨root, hroot, heq⟩ := hclean hr
    obtain rfl := Option.some.inj (heval.symm.trans heq)
    exact ⟨⟨g', Parsed.not_reportsError hr ▸ hp⟩, hroot⟩

/-- A driver that evaluates what it parsed, on a text without an error that says the same
as the whole script. -/
theorem DriverMeets.of_clean {text : Bytes} {driver : Outcome (Driven F)} {root : Option (Expr F)}
    {d : Driven F} (htext : ParsesClean find g text root) (hscript : ParsesClean find g script root)
    (hd : driver = .done d) (heval : d.evaluated = some root) :
    DriverMeets find g script text driver := by
  obtain ⟨g', hg'⟩ := htext
  refine ⟨⟨0, 0, root⟩, g', d, hg', hd, fun h => ?_, fun _ => ⟨root, hscript, heval⟩⟩
  rcases h with h | h
  · exact absurd rfl h
  · exact absurd h (Nat.not_lt_zero 0)

/-- All the drivers meet their contract exactly on the texts that are parsed without an
error with the functions of the recovery and of the updater, and of which neither the
limit of `edify_main` nor the first NUL cuts off anything that matters. -/
theorem drivers_iff (recovery updater : Bytes → Option F)
    (evaluate evaluate' : Option (Expr F) → Option Bytes) (g : Lexer) (script : Bytes) :
    SafeDrivers recovery updater evaluate evaluate' g script ↔
      (∃ root, ParsesClean recovery g script root ∧
        ParsesClean recovery g (script.take 8191) root) ∧
      ∃ root, ParsesClean updater g script root ∧ ParsesClean updater g (cstr script) root := by
  constructor
  · intro h
    obtain ⟨p₁, g₁, d₁, hp₁, hd₁, _⟩ := id h.meets_buffer
    obtain ⟨p₂, g₂, d₂, hp₂, hd₂, _⟩ := id h.meets_edify
    obtain ⟨p₃, g₃, d₃, hp₃, hd₃, _⟩ := id h.meets_updater
    have hrun := h.meets_buffer.of_evaluated hp₁ (run_script_from_buffer_eq hp₁) rfl
    have hedify := h.meets_edify.of_evaluated hp₂ (edify_main_eq hp₂) rfl
    have hsame := h.same d₁ d₂ d₃ hd₁ hd₂ hd₃
    rw [run_script_from_buffer_eq hp₁] at hd₁
    rw [edify_main_eq hp₂] at hd₂
    have hd₃' := hd₃
    rw [updater_main_eq hp₃] at hd₃'
    obtain rfl := Outcome.done.inj hd₂
    have hupdater : ¬p₃.reportsError := by
      intro hr
      rw [if_pos hr] at hd₃'
      obtain rfl := Outcome.done.inj hd₃'
      exact absurd hsame.2 (by simp)
    rw [if_neg hupdater] at hd₃'
    have hmeets := h.meets_updater.of_evaluated hp₃ hd₃ (by rw [← Outcome.done.inj hd₃'])
    exact ⟨⟨p₂.root, hedify.2, hedify.1⟩, p₃.root, hmeets.2, hmeets.1⟩
  · rintro ⟨⟨root, hscript, htake⟩, root', hscript', hcut⟩
    obtain ⟨g₁, hg₁⟩ := id hscript
    obtain ⟨g₂, hg₂⟩ := id htake
    obtain ⟨g₃, hg₃⟩ := id hcut
    have hok : ¬(⟨0, 0, root'⟩ : Parsed F).reportsError := by
      rintro (h | h)
      · exact h rfl
      · exact absurd h (Nat.not_lt_zero 0)
    have hrun : run_script_from_buffer recovery evaluate g script =
        .done ⟨some root, if (evaluate root).isNone then -1 else 0⟩ :=
      run_script_from_buffer_eq hg₁
    have hedify : edify_main recovery g script = .done ⟨some root, 0⟩ := edify_main_eq hg₂
    have hupdater : updater_main updater evaluate' g script =
        .done ⟨some root', if (evaluate' root').isNone then 7 else 0⟩ := by
      rw [updater_main_eq hg₃, if_neg hok]
    refine ⟨.of_clean hscript hscript hrun rfl, .of_clean htake hscript hedify rfl,
      .of_clean hcut hscript' hupdater rfl, ?_⟩
    intro d₁ d₂ d₃ h₁ h₂ h₃
    obtain rfl := Outcome.done.inj (hrun.symm.trans h₁)
    obtain rfl := Outcome.done.inj (hedify.symm.trans h₂)
    obtain rfl := Outcome.done.inj (hupdater.symm.trans h₃)
    exact ⟨rfl, rfl⟩

/-- `a b; c` is broken, and the recovery evaluates the `c` behind the error. -/
theorem drivers_broken_script :
    ¬SafeDrivers (F := Unit) (fun _ => none) (fun _ => none) (fun _ => some []) (fun _ => some []) .fresh
      (ascii "a b; c") := by
  intro h
  obtain ⟨p, g', d, hp, hd, herror, _⟩ := h.meets_buffer
  have hparse : parse (F := Unit) (fun _ => none) .fresh (ascii "a b; c") =
      .done (⟨0, 1, some (.node .Literal (ascii "c") [] ⟨0, 6⟩)⟩, ⟨6, .INITIAL, [], ⟨5, 6⟩⟩) := rfl
  obtain ⟨rfl, rfl⟩ := Prod.mk.inj (Outcome.done.inj (hparse.symm.trans hp))
  have hrun : run_script_from_buffer (fun _ => none) (fun _ => some []) .fresh (ascii "a b; c") =
      .done ⟨some (some (.node .Literal (ascii "c") [] ⟨0, 6⟩)), 0⟩ :=
    run_script_from_buffer_eq hparse
  obtain rfl := Outcome.done.inj (hrun.symm.trans hd)
  exact absurd (herror (.inr Nat.one_pos)).1 (by simp)

end BootableRecovery.Edify
