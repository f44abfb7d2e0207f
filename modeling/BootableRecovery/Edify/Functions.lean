import Mathlib.Data.List.Nodup
import BootableRecovery.Lib.BinarySearch
import BootableRecovery.Edify.Scripts

/-!
# `edify/expr.c`: the function table

`RegisterFunction` appends to an array that grows, `FinishRegistration` sorts it with
`qsort`, and `FindFunction` searches it with `bsearch`. `qsort` may leave entries with one
name in any order.

Main results:
* `findFunction_registered`: the table is the map that was registered, in whatever order.
* `registered_fits`: the array has room for every entry that is written.
* `calls_registered`: a script calls nothing else.
-/

namespace BootableRecovery.Edify

variable {F : Type}

/-- `fn_size` and the first `fn_entries` of `fn_table`. -/
structure FnTable (F : Type) where
  fn_size : Nat
  entries : List (Bytes × F)
  deriving DecidableEq, Repr

namespace FnTable

def empty : FnTable F := ⟨0, []⟩

/-- `RegisterFunction` -/
def register (t : FnTable F) (e : Bytes × F) : FnTable F where
  fn_size := if t.fn_size ≤ t.entries.length then t.fn_size * 2 + 1 else t.fn_size
  entries := t.entries ++ [e]

/-- `fn_entry_compare`, on the names of two entries, with the sign of `strcmp` -/
def fn_entry_compare (na nb : Bytes) : Int := if na < nb then -1 else if na = nb then 0 else 1

/-- `t'` is what `FinishRegistration` may make of `t`. -/
structure Finishes (t t' : FnTable F) : Prop where
  perm : t'.entries.Perm t.entries
  sorted : t'.entries.Pairwise fun a b => fn_entry_compare a.1 b.1 ≤ 0

/-- `FindFunction`, with a binary search for `bsearch` -/
def find (t : FnTable F) (name : Bytes) : Option F :=
  match bsearch (fun e => fn_entry_compare e.1 name) t.entries t.entries.length 0
      (t.entries.length - 1) with
  | .done high =>
    if high < 0 then none
    else (t.entries[high.toNat]?).bind fun e =>
      if fn_entry_compare e.1 name = 0 then some e.2 else none
  | _ => none

theorem fn_entry_compare_eq_zero {a b : Bytes} : fn_entry_compare a b = 0 ↔ a = b := by
  unfold fn_entry_compare
  split_ifs with hlt heq
  · exact ⟨fun h => by simp at h, fun h => absurd hlt (h ▸ List.lt_irrefl _)⟩
  · exact ⟨fun _ => heq, fun _ => rfl⟩
  · exact ⟨fun h => by simp at h, fun h => absurd h heq⟩

theorem fn_entry_compare_nonpos {a b : Bytes} (h : fn_entry_compare a b ≤ 0) : a ≤ b := by
  unfold fn_entry_compare at h
  split_ifs at h with hlt heq
  · exact List.le_of_lt hlt
  · rw [heq]
    exact List.le_refl _
  · exact absurd h (by decide)

/-- The sign of a comparison with a key grows with the name. -/
theorem fn_entry_compare_sign {a b : Bytes} (h : fn_entry_compare a b ≤ 0) (key : Bytes) :
    (fn_entry_compare a key).sign ≤ (fn_entry_compare b key).sign := by
  have hab := fn_entry_compare_nonpos h
  unfold fn_entry_compare
  by_cases hb : b < key
  · rw [if_pos (List.lt_of_le_of_lt hab hb), if_pos hb]
  · rw [if_neg hb]
    by_cases heq : b = key
    · rw [if_pos heq]
      rcases List.le_iff_lt_or_eq.mp (heq ▸ hab) with ha | ha
      · rw [if_pos ha]
        decide
      · rw [if_neg (ha ▸ List.lt_irrefl _), if_pos ha]
    · rw [if_neg heq]
      split_ifs <;> decide

/-- A search in a sorted table finds an entry with the name, or there is none. -/
theorem find_sorted {t : FnTable F}
    (h : t.entries.Pairwise fun a b => fn_entry_compare a.1 b.1 ≤ 0) (name : Bytes) :
    (∃ fn, t.find name = some fn ∧ (name, fn) ∈ t.entries) ∨
      t.find name = none ∧ ∀ e ∈ t.entries, e.1 ≠ name := by
  have hsign : SignSorted (fun e => fn_entry_compare e.1 name) t.entries :=
    h.imp fun hab => fn_entry_compare_sign hab name
  obtain ⟨target, hsearch, hdiv⟩ := bsearch_spec hsign
  unfold find
  rw [hsearch]
  cases target with
  | zero =>
    -- nothing is in front of the place, so that nothing is equal
    have hnone := hdiv.equal.resolve_left fun hex => by simp at hex
    exact .inr ⟨if_pos (by simp), fun e he heq => hnone e he (fn_entry_compare_eq_zero.mpr heq)⟩
  | succ n =>
    have hn : n < t.entries.length := hdiv.le
    have hpos : ¬ ((n + 1 : Nat) : Int) - 1 < 0 := by simp
    have hnat : (((n + 1 : Nat) : Int) - 1).toNat = n := by simp
    simp only [if_neg hpos, hnat, List.getElem?_eq_getElem hn, Option.bind_some]
    have hmem : t.entries[n] ∈ t.entries := List.getElem_mem hn
    by_cases hlast : fn_entry_compare t.entries[n].1 name = 0
    · rw [if_pos hlast]
      rw [fn_entry_compare_eq_zero] at hlast
      exact .inl ⟨_, rfl, hlast ▸ hmem⟩
    · rw [if_neg hlast]
      refine .inr ⟨rfl, fun e he heq => ?_⟩
      obtain ⟨e', he', hzero⟩ := hdiv.equal.resolve_right fun hnone =>
        hnone e he (fn_entry_compare_eq_zero.mpr heq)
      -- the last entry in front of the place is between an equal one and the key
      obtain ⟨i, hi, rfl⟩ := List.mem_iff_getElem.mp he'
      rw [List.length_take] at hi
      rw [List.getElem_take] at hzero
      have hle : fn_entry_compare t.entries[n].1 name ≤ 0 :=
        hdiv.before _ (List.mem_take_iff_getElem.mpr ⟨n, by omega, rfl⟩)
      have hge : (0 : Int) ≤ (fn_entry_compare t.entries[n].1 name).sign := by
        rcases (Nat.lt_succ_iff.mp (hi.trans_le (min_le_left _ _))).eq_or_lt with rfl | hlt
        · rw [hzero]
          exact le_rfl
        · have hsigns : (fn_entry_compare t.entries[i].1 name).sign ≤
              (fn_entry_compare t.entries[n].1 name).sign :=
            List.pairwise_iff_getElem.mp hsign i n (hlt.trans hn) hn hlt
          rwa [hzero] at hsigns
      exact hlast (le_antisymm hle (Int.sign_nonneg_iff.mp hge))

/-- The functions that a program registers, one after another. -/
def registerAll (es : List (Bytes × F)) : FnTable F := es.foldl register empty

theorem registerAll_entries (es : List (Bytes × F)) : (registerAll es).entries = es := by
  have hgen : ∀ t : FnTable F, (es.foldl register t).entries = t.entries ++ es := by
    induction es with
    | nil => simp
    | cons e es ih =>
      intro t
      rw [List.foldl_cons, ih, register, List.append_assoc, List.singleton_append]
  rw [registerAll, hgen, empty, List.nil_append]

/-- Every entry is written inside the array as it was last allocated. -/
theorem registered_fits (es : List (Bytes × F)) :
    (registerAll es).entries.length ≤ (registerAll es).fn_size := by
  have hgen : ∀ t : FnTable F, t.entries.length ≤ t.fn_size →
      (es.foldl register t).entries.length ≤ (es.foldl register t).fn_size := by
    induction es with
    | nil => exact fun t h => h
    | cons e es ih =>
      intro t h
      refine ih _ ?_
      simp only [register, List.length_append, List.length_singleton]
      split_ifs with hfull
      · omega
      · omega
  exact hgen empty le_rfl

theorem finishes_mem {es : List (Bytes × F)} {t : FnTable F} (h : Finishes (registerAll es) t)
    (e : Bytes × F) : e ∈ t.entries ↔ e ∈ es := by
  rw [h.perm.mem_iff, registerAll_entries]

theorem find_mem {es : List (Bytes × F)} {t : FnTable F} (h : Finishes (registerAll es) t)
    {name : Bytes} {fn : F} (hfind : t.find name = some fn) : (name, fn) ∈ es := by
  rcases find_sorted h.sorted name with ⟨fn', hfind', he⟩ | ⟨hnone, -⟩
  · obtain rfl : fn = fn' := Option.some.inj (hfind.symm.trans hfind')
    exact (finishes_mem h _).mp he
  · rw [hnone] at hfind
    cases hfind

/-- What `FindFunction` returns was registered under the name, and it returns something for
every name that was. When no name is used twice, it finds the function of the name, in
whatever order the functions were registered and sorted. -/
theorem findFunction_registered {es : List (Bytes × F)} {t : FnTable F}
    (h : Finishes (registerAll es) t) (name : Bytes) :
    (∀ fn, t.find name = some fn → (name, fn) ∈ es) ∧
      (t.find name = none ↔ ∀ e ∈ es, e.1 ≠ name) ∧
      ((es.map Prod.fst).Nodup → ∀ fn, t.find name = some fn ↔ (name, fn) ∈ es) := by
  have hmem := finishes_mem h
  have hcomplete : t.find name = none ↔ ∀ e ∈ es, e.1 ≠ name := by
    rcases find_sorted h.sorted name with ⟨fn, hfind, he⟩ | ⟨hnone, hall⟩
    · exact ⟨fun hn => by simp [hfind] at hn, fun hall => absurd rfl (hall _ ((hmem _).mp he))⟩
    · exact ⟨fun _ e he => hall e ((hmem e).mpr he), fun _ => hnone⟩
  refine ⟨fun _ => find_mem h, hcomplete, fun hnodup fn => ⟨find_mem h, fun he => ?_⟩⟩
  cases hfind : t.find name with
  | none => exact absurd rfl (hcomplete.mp hfind _ he)
  | some fn' =>
    have heq := List.inj_on_of_nodup_map hnodup (find_mem h hfind) he rfl
    rw [(Prod.mk.inj heq).2]

/-- Two functions, which are registered in the wrong order -/
def sampleTable : FnTable Nat := ⟨3, [(ascii "abort", 1), (ascii "ifelse", 0)]⟩

theorem sampleTable_finishes :
    Finishes (registerAll [(ascii "ifelse", 0), (ascii "abort", 1)]) sampleTable :=
  ⟨by decide, by decide⟩

theorem findFunction_registered_sample :
    (∀ fn, sampleTable.find (ascii "abort") = some fn →
        (ascii "abort", fn) ∈ [(ascii "ifelse", 0), (ascii "abort", 1)]) ∧
      (sampleTable.find (ascii "abort") = none ↔
        ∀ e ∈ [(ascii "ifelse", 0), (ascii "abort", 1)], e.1 ≠ ascii "abort") ∧
      (([(ascii "ifelse", 0), (ascii "abort", 1)].map Prod.fst).Nodup → ∀ fn,
        sampleTable.find (ascii "abort") = some fn ↔
          (ascii "abort", fn) ∈ [(ascii "ifelse", 0), (ascii "abort", 1)]) :=
  findFunction_registered sampleTable_finishes (ascii "abort")

end FnTable

/-! ## The calls of a script -/

/-- What the rules of the grammar keep. -/
structure KeptByRules (find : Bytes → Option F) (K : Expr F → Prop) : Prop where
  literal : ∀ str l, K (.literal str l)
  withLoc : ∀ e l, K e → K (e.withLoc l)
  build : ∀ fn l argv, (∀ f, fn ≠ .found f) → (∀ e ∈ argv, K e) → K (.Build fn l argv)
  call : ∀ str fn argv l, find str = some fn → (∀ e ∈ argv, K e) →
    K (.node (.found fn) str argv l)

def Ctx.exprs : Ctx F → List (Expr F)
  | .binary _ left _ _ => [left]
  | .then_ _ cnd => [cnd]
  | .else_ _ cnd yes => [cnd, yes]
  | .comma _ _ _ argv _ => argv
  | _ => []

def Top.exprs : Top F → List (Expr F)
  | .expr e _ => [e]
  | .args argv _ => argv
  | _ => []

/-- The expressions on the stack of the parser, and its value. -/
structure Config.All (K : Expr F → Prop) (c : Config F) : Prop where
  top : ∀ e ∈ c.top.exprs, K e
  ctxs : ∀ k ∈ c.ctxs, ∀ e ∈ k.exprs, K e
  root : ∀ e ∈ c.root, K e

section Rules

variable {find : Bytes → Option F} {K : Expr F → Prop} {c c' : Config F}

theorem Config.All.syntaxError (h : c.All K) (hstep : c.syntaxError = .inl c') : c'.All K := by
  unfold Config.syntaxError at hstep
  simp only at hstep
  split_ifs at hstep
  · split at hstep
    · cases hstep
    · cases hstep
      exact ⟨by simp [Top.exprs], h.ctxs, h.root⟩
  all_goals
    cases hstep
    exact ⟨by simp [Top.exprs], h.ctxs, h.root⟩

/-- A new symbol on top of a part of the stack. -/
theorem Config.All.onto (h : c.All K) {top : Top F} {ctxs : List (Ctx F)} {input}
    {eof : YYLTYPE} {st n : Nat} (htop : ∀ e ∈ top.exprs, K e)
    (hctxs : ∀ k ∈ ctxs, k ∈ c.ctxs ∨ ∀ e ∈ k.exprs, K e) :
    Config.All K ⟨top, ctxs, input, eof, st, n, c.root⟩ :=
  ⟨htop, fun k hk => (hctxs k hk).elim (h.ctxs k) id, h.root⟩

theorem Config.All.expects (hK : KeptByRules find K) (h : c.All K)
    (hstep : c.expects = .inl c') : c'.All K := by
  have hkeep : ∀ k ∈ c.ctxs, k ∈ c.ctxs ∨ ∀ e ∈ k.exprs, K e := fun _ hk => .inl hk
  have hpush : ∀ k : Ctx F, k.exprs = [] → ∀ k' ∈ k :: c.ctxs, k' ∈ c.ctxs ∨ ∀ e ∈ k'.exprs, K e := by
    intro k hk k' hk'
    rcases List.mem_cons.mp hk' with rfl | hk'
    · exact .inr (by simp [hk])
    · exact .inl hk'
  unfold Config.expects at hstep
  split at hstep
  · cases hstep
    exact h.onto (by simp [Top.exprs]) hkeep
  · cases hstep
    exact h.onto (by simp [Top.exprs]) (hpush _ rfl)
  · cases hstep
    exact h.onto (by simp [Top.exprs]) (hpush _ rfl)
  · cases hstep
    exact h.onto (by simp [Top.exprs]) (hpush _ rfl)
  · split at hstep
    · cases hstep
      exact h.onto (by simp [Top.exprs]) hkeep
    · cases hstep
      exact h.onto (by simp [Top.exprs]) hkeep
    · rename_i e l lop ctxs hctxs
      split_ifs at hstep
      · cases hstep
        have he : K e := h.ctxs (.binary .semi e l lop) (by simp [hctxs]) e (by simp [Ctx.exprs])
        refine h.onto (by simpa [Top.exprs] using hK.withLoc e l he) fun k hk => .inl ?_
        exact hctxs ▸ List.mem_cons_of_mem _ hk
      · exact h.syntaxError hstep
    · exact h.syntaxError hstep

theorem Config.All.closeExpr (hK : KeptByRules find K) (h : c.All K) {e : Expr F} (he : K e)
    {l : YYLTYPE} (hstep : c.closeExpr e l = .inl c') : c'.All K := by
  have hbuild : ∀ fn l argv, (∀ f, fn ≠ .found f) → (∀ e ∈ argv, K e) →
      ∀ e' ∈ (Top.expr (.Build fn l argv) l).exprs, K e' := by
    intro fn l argv hfn hargv e' he'
    rw [List.mem_singleton.mp he']
    exact hK.build fn l argv hfn hargv
  have hbelow : ∀ {k : Ctx F} {ctxs : List (Ctx F)}, c.ctxs = k :: ctxs →
      (∀ e ∈ k.exprs, K e) ∧ ∀ k' ∈ ctxs, k' ∈ c.ctxs ∨ ∀ e ∈ k'.exprs, K e := by
    intro k ctxs hctxs
    rw [hctxs]
    exact ⟨h.ctxs k (by simp [hctxs]), fun k' hk' => .inl (List.mem_cons_of_mem _ hk')⟩
  have hpush : ∀ {k k' : Ctx F} {ctxs : List (Ctx F)}, c.ctxs = k :: ctxs →
      (∀ e ∈ k'.exprs, K e) → ∀ j ∈ k' :: ctxs, j ∈ c.ctxs ∨ ∀ e ∈ j.exprs, K e := by
    intro k k' ctxs hctxs hk' j hj
    rcases List.mem_cons.mp hj with rfl | hj
    · exact .inr hk'
    · exact (hbelow hctxs).2 j hj
  unfold Config.closeExpr at hstep
  split at hstep
  · cases hstep
    exact ⟨by simp [Top.exprs, Config.reduce], by simp [Config.reduce], by simpa using he⟩
  · rename_i hctxs _
    cases hstep
    exact h.onto (by simpa [Top.exprs] using hK.withLoc e _ he) (hbelow hctxs).2
  · rename_i hctxs
    cases hstep
    exact h.onto (hbuild _ _ _ (by simp) (by simpa using he)) (hbelow hctxs).2
  · rename_i o left l₀ _ ctxs hctxs
    cases hstep
    have hleft := (hbelow hctxs).1 left (by simp [Ctx.exprs])
    have hfn : ∀ f : F, o.fn ≠ Fn.found f := by cases o <;> simp [Op.fn]
    exact h.onto (hbuild _ _ _ hfn (by simp [hleft, he])) (hbelow hctxs).2
  · rename_i hctxs
    cases hstep
    exact h.onto (by simpa [Top.exprs] using hK.withLoc e _ he) (hbelow hctxs).2
  · rename_i hctxs _
    cases hstep
    exact h.onto (by simp [Top.exprs]) (hpush hctxs (by simpa [Ctx.exprs] using he))
  · rename_i cnd ctxs _ _ hctxs _
    cases hstep
    have hcnd := (hbelow hctxs).1 cnd (by simp [Ctx.exprs])
    exact h.onto (by simp [Top.exprs]) (hpush hctxs (by simp [Ctx.exprs, hcnd, he]))
  · rename_i cnd ctxs l₁ _ hctxs _
    cases hstep
    have hcnd := (hbelow hctxs).1 cnd (by simp [Ctx.exprs])
    exact h.onto (hbuild _ _ _ (by simp) (by simp [hcnd, he])) (hbelow hctxs).2
  · rename_i cnd yes ctxs l₁ _ hctxs _
    cases hstep
    have hcnd := (hbelow hctxs).1 cnd (by simp [Ctx.exprs])
    have hyes := (hbelow hctxs).1 yes (by simp [Ctx.exprs])
    exact h.onto (hbuild _ _ _ (by simp) (by simp [hcnd, hyes, he])) (hbelow hctxs).2
  · cases hstep
    exact h.onto (by simpa [Top.exprs] using he) fun k hk => .inl hk
  · rename_i str l₀ lparen argv largs ctxs hctxs
    cases hstep
    have hargv := (hbelow hctxs).1
    refine h.onto (fun e' he' => ?_) (hpush hctxs (by simp [Ctx.exprs]))
    rcases List.mem_append.mp he' with he' | he'
    · exact hargv e' he'
    · exact List.mem_singleton.mp he' ▸ he
  · exact h.syntaxError hstep

theorem Config.All.afterExpr (hK : KeptByRules find K) (h : c.All K) {e : Expr F} (he : K e)
    {l : YYLTYPE} (hstep : c.afterExpr e l = .inl c') : c'.All K := by
  unfold Config.afterExpr at hstep
  split at hstep
  · split at hstep
    · split_ifs at hstep
      · cases hstep
        refine h.onto (by simp [Top.exprs]) fun k hk => ?_
        rcases List.mem_cons.mp hk with rfl | hk
        · exact .inr (by simpa [Ctx.exprs] using he)
        · exact .inl hk
      · exact h.closeExpr hK he hstep
    · exact h.closeExpr hK he hstep
  · exact h.closeExpr hK he hstep

theorem Config.All.afterArgs (hK : KeptByRules find K) (h : c.All K) {argv : List (Expr F)}
    (hargv : ∀ e ∈ argv, K e) (hstep : c.afterArgs find argv = .inl c') : c'.All K := by
  unfold Config.afterArgs at hstep
  split at hstep
  · rename_i str l _ ctxs l₁ _ hctxs _
    have hbelow : ∀ k ∈ ctxs, k ∈ c.ctxs ∨ ∀ e ∈ k.exprs, K e := fun k hk =>
      .inl (hctxs ▸ List.mem_cons_of_mem _ hk)
    cases hfind : find str with
    | some fn =>
      rw [hfind] at hstep
      cases hstep
      exact h.onto (by simpa [Top.exprs] using hK.call str fn argv _ hfind hargv) hbelow
    | none =>
      rw [hfind] at hstep
      cases hstep
      exact h.onto (by simp [Top.exprs, Config.shift]) hbelow
  · rename_i hctxs _
    cases hstep
    refine h.onto (by simp [Top.exprs]) fun k hk => ?_
    rcases List.mem_cons.mp hk with rfl | hk
    · exact .inr hargv
    · exact .inl (hctxs ▸ List.mem_cons_of_mem _ hk)
  · exact h.syntaxError hstep

theorem Config.All.step (hK : KeptByRules find K) (h : c.All K)
    (hstep : c.step find = .inl c') : c'.All K := by
  have hkeep : ∀ k ∈ c.ctxs, k ∈ c.ctxs ∨ ∀ e ∈ k.exprs, K e := fun _ hk => .inl hk
  have htop := h.top
  unfold Config.step at hstep
  split at hstep
  · exact h.expects hK hstep
  · rename_i str l _
    split at hstep
    · cases hstep
      refine h.onto (by simp [Top.exprs]) fun k hk => ?_
      rcases List.mem_cons.mp hk with rfl | hk
      · exact .inr (by simp [Ctx.exprs])
      · exact .inl hk
    · cases hstep
      exact h.onto (by simpa [Top.exprs] using hK.literal str l) hkeep
  · rename_i e l heq
    rw [heq] at htop
    exact h.afterExpr hK (htop e (by simp [Top.exprs])) hstep
  · rename_i argv l heq
    rw [heq] at htop
    exact h.afterArgs hK htop hstep
  · split at hstep
    · cases hstep
      refine h.onto (by simp [Top.exprs]) fun k hk => ?_
      rcases List.mem_cons.mp hk with rfl | hk
      · exact .inr (by simp [Ctx.exprs])
      · exact .inl hk
    · exact h.syntaxError hstep
  · split at hstep
    · cases hstep
    · exact h.syntaxError hstep

theorem Config.All.steps (hK : KeptByRules find K) (h : c.All K) (hsteps : Steps find c c') :
    c'.All K := by
  induction hsteps with
  | refl => exact h
  | tail _ hstep ih => exact ih.step hK hstep

/-- What the rules keep holds of everything that is parsed. -/
theorem parse_kept (hK : KeptByRules find K) {g g' : Lexer} {script : Bytes} {p : Parsed F}
    (h : parse find g script = .done (p, g')) {root : Expr F} (hroot : p.root = some root) :
    K root := by
  obtain ⟨⟨ts, g₁⟩, -, hrest⟩ := Outcome.bind_eq_done.mp h
  obtain ⟨p', hp', hdone⟩ := Outcome.bind_eq_done.mp hrest
  obtain ⟨rfl, -⟩ := Prod.mk.inj (Outcome.done.inj hdone)
  obtain ⟨c, hsteps, -, -, hvalue⟩ := run_eq_done hp'
  have hinitial : (Config.initial ts g₁.yylloc : Config F).All K :=
    ⟨by simp [Config.initial, Top.exprs], by simp [Config.initial], by simp [Config.initial]⟩
  exact (hinitial.steps hK hsteps).root root (hvalue ▸ hroot)

end Rules

/-- Every call inside an expression is of the function with its name. -/
def CallsFound (find : Bytes → Option F) (root : Expr F) : Prop :=
  ∀ f name argv loc, (Expr.node (.found f) name argv loc).Within root → find name = some f

theorem Expr.within_cases {e root : Expr F} (h : e.Within root) :
    e = root ∨ ∃ a ∈ root.argv, e.Within a := by
  cases h with
  | self => exact .inl rfl
  | arg ha h => exact .inr ⟨_, ha, h⟩

theorem callsFound_kept (find : Bytes → Option F) : KeptByRules find (CallsFound find) where
  literal str l := by
    intro f name argv loc hin
    rcases Expr.within_cases hin with heq | ⟨a, ha, -⟩
    · cases heq
    · cases ha
  withLoc e l he := by
    intro f name argv loc hin
    rcases Expr.within_cases hin with heq | ⟨a, ha, hin⟩
    · cases e with
      | node fn name' argv' loc' =>
        cases heq
        exact he f name argv loc' .self
    · rw [Expr.argv_withLoc] at ha
      exact he f name argv loc (.arg ha hin)
  build fn l argv hfn hargv := by
    intro f name argv' loc hin
    rcases Expr.within_cases hin with heq | ⟨a, ha, hin⟩
    · cases heq
      exact absurd rfl (hfn f)
    · exact hargv a ha f name argv' loc hin
  call str fn argv l hfind hargv := by
    intro f name argv' loc hin
    rcases Expr.within_cases hin with heq | ⟨a, ha, hin⟩
    · cases heq
      exact hfind
    · exact hargv a ha f name argv' loc hin

/-- Whatever the script, with or without errors: every call in the expression that is parsed,
at any depth, is of a function that was registered under the name that the script uses. -/
theorem calls_registered {es : List (Bytes × F)} {t : FnTable F}
    (h : FnTable.Finishes (FnTable.registerAll es) t) {g g' : Lexer} {script : Bytes}
    {p : Parsed F} (hparse : parse t.find g script = .done (p, g')) {root : Expr F}
    (hroot : p.root = some root) {f : F} {name : Bytes} {argv : List (Expr F)} {loc : YYLTYPE}
    (hin : (Expr.node (.found f) name argv loc).Within root) : (name, f) ∈ es := by
  have hfound := parse_kept (callsFound_kept t.find) hparse hroot f name argv loc hin
  exact FnTable.find_mem h hfound

theorem calls_registered_sample :
    (ascii "abort", 1) ∈ [(ascii "ifelse", 0), (ascii "abort", 1)] := by
  have hparse : ∃ p g', parse FnTable.sampleTable.find .fresh (ascii "a + abort()") =
      .done (p, g') ∧ p.root = some (.Build .ConcatFn ⟨0, 11⟩ [.literal (ascii "a") ⟨0, 1⟩,
        .node (.found 1) (ascii "abort") [] ⟨4, 11⟩]) := ⟨_, _, rfl, rfl⟩
  obtain ⟨p, g', hparse, hroot⟩ := hparse
  exact calls_registered FnTable.sampleTable_finishes hparse hroot (.arg (.tail _ (.head _)) .self)

end BootableRecovery.Edify
