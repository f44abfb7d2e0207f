import BootableRecovery.Lib.Scanf

/-!
# `mounts.c`: the table of mounted volumes

`scan_mounted_volumes` reads the first 2047 bytes of `/proc/mounts` and puts the first four
fields of each line into a table of 32 volumes.

* `parseVolumes` is what the loop finds in the text, and `MountsState.addAll` puts
  it into the table.
* `parseVolumes_iff`: a volume for each line is found when the fields fit the arrays and were
  read (`Readable`).
* `scanMountedVolumes_iff`: the table has all the volumes when there are also not more than
  32 of them.
-/

namespace BootableRecovery.Mounts

open Scanf

/-! ## The table -/

/-- `MountedVolume`; `none` is `NULL`. -/
structure MountedVolume where
  device : Option Bytes
  mount_point : Option Bytes
  filesystem : Option Bytes
  flags : Option Bytes
  deriving DecidableEq, Repr

/-- A volume that was cleared with `memset`. -/
def MountedVolume.zero : MountedVolume := ⟨none, none, none, none⟩

/-- `numv` -/
def numv : Nat := 32

/-- `MountsState`; without volumes the table is not allocated. `volumes_allocd` is the length of
the table. -/
structure MountsState where
  volumes : List MountedVolume
  volume_count : Nat
  allocd : volumes.length = 0 ∨ volumes.length = numv
  count_le : volume_count ≤ volumes.length

/-- `g_mounts_state` at the start. -/
def gMountsState : MountsState := ⟨[], 0, .inl rfl, le_rfl⟩

/-- An empty table: a new one, or the old one with its volumes freed. -/
def MountsState.clear (s : MountsState) : MountsState :=
  if h : s.volumes = [] then
    ⟨List.replicate numv .zero, 0, .inr List.length_replicate, Nat.zero_le _⟩
  else
    { volumes := List.replicate s.volume_count .zero ++ s.volumes.drop s.volume_count
      volume_count := 0
      allocd := by
        have hcount := s.count_le
        have hlen := s.allocd
        have hpos : s.volumes.length ≠ 0 := fun hzero => h (List.length_eq_zero_iff.mp hzero)
        simp only [List.length_append, List.length_replicate, List.length_drop]
        omega
      count_le := Nat.zero_le _ }

/-- `g_mounts_state.volumes[g_mounts_state.volume_count++] = v` -/
def MountsState.add (s : MountsState) (v : MountedVolume) : Outcome MountsState :=
  if h : s.volume_count < s.volumes.length then
    .done
      { volumes := s.volumes.set s.volume_count v
        volume_count := s.volume_count + 1
        allocd := by
          rw [List.length_set]
          exact s.allocd
        count_le := by
          rw [List.length_set]
          exact h }
  else .fault

/-- The volumes in use. -/
def MountsState.used (s : MountsState) : List MountedVolume := s.volumes.take s.volume_count

/-! ## `scan_mounted_volumes` -/

/-- The widths of `"%63s %63s %63s %127s"`. -/
def widths : List Nat := [63, 63, 63, 127]

/-- The volume of four fields. -/
def volumeOf : List Bytes → Option MountedVolume
  | [device, mount_point, filesystem, flags] =>
    some ⟨some device, some mount_point, some filesystem, some flags⟩
  | _ => none

/-- `sscanf` on the string at `bufp`, where `rest` is left of the text. -/
def sscanf (rest : Bytes) : Option MountedVolume := volumeOf (scanWords widths (cstr rest))

/-- Eat the line. -/
def eatLine (rest : Bytes) : Bytes := (rest.dropWhile (· ≠ 10)).drop 1

/-- The loop, with the `nbytes` bytes at `bufp` in `rest`. -/
def scanLoop : Nat → Bytes → MountsState → Outcome MountsState
  | 0, _, _ => .spin
  | fuel + 1, rest, s =>
    if rest = [] then .done s
    else
      match sscanf rest with
      | some v => do
        let s ← s.add v
        scanLoop fuel (eatLine rest) s
      | none => scanLoop fuel (eatLine rest) s

/-- `scan_mounted_volumes`; `none` is a file that cannot be opened or read. -/
def scanMountedVolumes (proc_mounts : Option Bytes) (s : MountsState) :
    Outcome (Int × MountsState) :=
  match proc_mounts with
  | none => .done (-1, s.clear)
  | some content => do
    let buf := content.take 2047
    let s ← scanLoop (buf.length + 1) buf s.clear
    .done (0, s)

/-- `find_mounted_volume_by_mount_point` -/
def findMountedVolumeByMountPoint (s : MountsState) (mount_point : Bytes) :
    Option MountedVolume :=
  s.used.find? fun v => v.mount_point = some mount_point

/-! ## What the file says -/

/-- A line of text. -/
structure Line where
  text : Bytes
  plain : ∀ c ∈ text, c ≠ 10 ∧ c ≠ 0

/-- The file with these lines. -/
def content (lines : List Line) : Bytes := lines.flatMap fun line => line.text ++ [10]

/-- The fields are the first ones of the line. -/
def Line.FirstFields (line : Line) (fields : List Bytes) : Prop :=
  ∃ t r, line.text = t ++ r ∧ Words fields t ∧ Ends r

/-- The volume has the first four fields of the line. -/
def EntryOf (v : MountedVolume) (line : Line) : Prop :=
  ∃ fields, line.FirstFields fields ∧ volumeOf fields = some v

/-- Some line has this mount point. -/
def Mounted (lines : List Line) (mount_point : Bytes) : Prop :=
  ∃ line ∈ lines, ∃ v, EntryOf v line ∧ v.mount_point = some mount_point

/-- The table has the volume of each line, in order, and what is mounted is found in it. -/
def TableComplete (lines : List Line) (s : MountsState) : Prop :=
  List.Forall₂ EntryOf s.used lines ∧
    ∀ mount_point, (findMountedVolumeByMountPoint s mount_point).isSome = true ↔
      Mounted lines mount_point

/-- No index of the table is outside it, and the table is complete behind the scan. -/
def ScansAll (s : MountsState) (lines : List Line) : Prop :=
  ∃ s', scanMountedVolumes (some (content lines)) s = .done (0, s') ∧ TableComplete lines s'

/-- The line has four fields that fit the arrays, and the last one ends among the first `n`
bytes. -/
def Line.Fits (n : Nat) (line : Line) : Prop :=
  ∃ fields t r, line.text = t ++ r ∧ Words fields t ∧ Ends r ∧
    List.Forall₂ (fun field width => field.length ≤ width) fields widths ∧ t.length ≤ n

/-- All lines have fields that fit, and they end among the first `n` bytes. -/
def Readable : Nat → List Line → Prop
  | _, [] => True
  | n, line :: lines => line.Fits n ∧ Readable (n - (line.text.length + 1)) lines

/-! ## The loop -/

/-- The volumes that the loop finds. -/
def parseVolumes : Nat → Bytes → List MountedVolume
  | 0, _ => []
  | fuel + 1, rest =>
    if rest = [] then [] else (sscanf rest).toList ++ parseVolumes fuel (eatLine rest)

def MountsState.addAll : List MountedVolume → MountsState → Outcome MountsState
  | [], s => .done s
  | v :: vs, s => do
    let s ← s.add v
    addAll vs s

theorem eatLine_length_lt {rest : Bytes} (h : rest ≠ []) : (eatLine rest).length < rest.length := by
  have hle : (rest.dropWhile (· ≠ 10)).length ≤ rest.length := (List.dropWhile_suffix _).length_le
  have hpos := List.length_pos_of_ne_nil h
  unfold eatLine
  rw [List.length_drop]
  omega

theorem eatLine_line {text : Bytes} (h : 10 ∉ text) (rest : Bytes) :
    eatLine (text ++ 10 :: rest) = rest := by
  have hne : ∀ c ∈ text, decide (c ≠ 10) = true := fun c hc =>
    decide_eq_true fun heq => h (heq ▸ hc)
  unfold eatLine
  rw [List.dropWhile_append_of_pos hne]
  rfl

theorem eatLine_last {text : Bytes} (h : 10 ∉ text) : eatLine text = [] := by
  have hne : ∀ c ∈ text, decide (c ≠ 10) = true := fun c hc =>
    decide_eq_true fun heq => h (heq ▸ hc)
  unfold eatLine
  rw [List.dropWhile_eq_nil_iff.mpr hne]
  rfl

/-- The loop adds what it finds. -/
theorem scanLoop_eq {fuel : Nat} {rest : Bytes} (hfuel : rest.length < fuel) (s : MountsState) :
    scanLoop fuel rest s = s.addAll (parseVolumes fuel rest) := by
  induction fuel generalizing rest s with
  | zero => cases hfuel
  | succ fuel ih =>
    unfold scanLoop parseVolumes
    split_ifs with hnil
    · rfl
    have hlt := eatLine_length_lt hnil
    cases sscanf rest with
    | none => exact ih (by omega) s
    | some v =>
      show (s.add v >>= fun s => scanLoop fuel (eatLine rest) s) =
        s.add v >>= fun s => s.addAll (parseVolumes fuel (eatLine rest))
      congr 1
      funext s
      exact ih (by omega) s

theorem MountsState.add_used {s s' : MountsState} {v : MountedVolume} (h : s.add v = .done s') :
    s'.used = s.used ++ [v] ∧ s'.volumes.length = s.volumes.length := by
  unfold MountsState.add at h
  split at h
  · rename_i hlt
    cases h
    refine ⟨?_, List.length_set⟩
    show (s.volumes.set s.volume_count v).take (s.volume_count + 1) = s.volumes.take _ ++ [v]
    rw [List.take_succ_eq_append_getElem (by rw [List.length_set]; exact hlt),
      List.getElem_set_self, List.take_set_of_le le_rfl]
  · cases h

theorem MountsState.used_length (s : MountsState) : s.used.length = s.volume_count :=
  List.length_take_of_le s.count_le

/-- There is room for the volumes, and they are put behind the others; or an index is outside
the table. -/
theorem MountsState.addAll_cases (vs : List MountedVolume) : ∀ s : MountsState,
    (s.used.length + vs.length ≤ s.volumes.length ∧
        ∃ s', s.addAll vs = .done s' ∧ s'.used = s.used ++ vs) ∨
      (s.volumes.length < s.used.length + vs.length ∧ s.addAll vs = .fault) := by
  induction vs with
  | nil =>
    intro s
    refine .inl ⟨?_, s, rfl, (List.append_nil _).symm⟩
    rw [s.used_length]
    exact s.count_le
  | cons v vs ih =>
    intro s
    rw [addAll, List.length_cons]
    by_cases hroom : s.volume_count < s.volumes.length
    · obtain ⟨s₁, hadd⟩ : ∃ s₁, s.add v = .done s₁ := by
        unfold MountsState.add
        rw [dif_pos hroom]
        exact ⟨_, rfl⟩
      obtain ⟨hused, hlen⟩ := add_used hadd
      rw [hadd, Outcome.done_bind]
      rcases ih s₁ with ⟨hle, s', hrun, hs'⟩ | ⟨hlt, hrun⟩
      · rw [hused, hlen, List.length_append, List.length_singleton] at hle
        refine .inl ⟨by omega, s', hrun, ?_⟩
        rw [hs', hused, List.append_assoc, List.singleton_append]
      · rw [hused, hlen, List.length_append, List.length_singleton] at hlt
        exact .inr ⟨by omega, hrun⟩
    · refine .inr ⟨?_, ?_⟩
      · rw [s.used_length]
        omega
      · unfold MountsState.add
        rw [dif_neg hroom]
        rfl

theorem MountsState.clear_used (s : MountsState) : s.clear.used = [] := by
  have hzero : s.clear.volume_count = 0 := by
    unfold MountsState.clear
    split
    · rfl
    · rfl
  exact List.length_eq_zero_iff.mp (s.clear.used_length.trans hzero)

theorem MountsState.clear_length (s : MountsState) : s.clear.volumes.length = numv := by
  rcases s.clear.allocd with hzero | hlen
  · have hne : s.clear.volumes.length ≠ 0 := by
      unfold MountsState.clear
      split
      · exact fun h => absurd (List.length_replicate ▸ h) (by decide)
      · rename_i hne
        have hpos : s.volumes.length ≠ 0 := fun hzero => hne (List.length_eq_zero_iff.mp hzero)
        have hcount := s.count_le
        simp only [List.length_append, List.length_replicate, List.length_drop]
        omega
    exact absurd hzero hne
  · exact hlen

/-! ## The fields of the lines -/

section Fields

variable {line : Line} {lines : List Line} {v : MountedVolume} {fields : List Bytes} {rest : Bytes}

theorem volumeOf_eq_some (h : volumeOf fields = some v) :
    fields.length = widths.length ∧ v = ⟨fields[0]?, fields[1]?, fields[2]?, fields[3]?⟩ := by
  match fields, h with
  | [_, _, _, _], h =>
    cases h
    exact ⟨rfl, rfl⟩

theorem volumeOf_inj {fields' : List Bytes} (h : volumeOf fields = some v)
    (h' : volumeOf fields' = some v) : fields = fields' := by
  match fields, fields', h, h' with
  | [_, _, _, _], [_, _, _, _], h, h' =>
    cases h
    cases h'
    rfl

theorem volumeOf_fits
    (h : List.Forall₂ (fun field width => field.length ≤ width) fields widths) :
    ∃ v, volumeOf fields = some v := by
  match fields, h with
  | [_, _, _, _], _ => exact ⟨_, rfl⟩

theorem Line.newline_notMem (line : Line) : 10 ∉ line.text := fun h => (line.plain 10 h).1 rfl

/-- What `sscanf` stores fits the arrays. -/
theorem sscanf_fits (h : sscanf rest = some v) : ∃ fields, volumeOf fields = some v ∧
    scanWords widths (cstr rest) = fields ∧
    List.Forall₂ (fun field width => field.length ≤ width) fields widths :=
  ⟨_, h, rfl, scanWords_fit (volumeOf_eq_some h).1⟩

theorem parseVolumes_fits {fuel : Nat} (h : v ∈ parseVolumes fuel rest) :
    ∃ fields, volumeOf fields = some v ∧
      List.Forall₂ (fun field width => field.length ≤ width) fields widths := by
  induction fuel generalizing rest with
  | zero => cases h
  | succ fuel ih =>
    unfold parseVolumes at h
    split_ifs at h with hnil
    · cases h
    rcases List.mem_append.mp h with hhead | htail
    · obtain ⟨fields, hv, -, hfits⟩ := sscanf_fits (Option.mem_toList.mp hhead)
      exact ⟨fields, hv, hfits⟩
    · exact ih htail

theorem parseVolumes_last {fuel : Nat} (hfuel : rest.length < fuel) (h : 10 ∉ rest) :
    parseVolumes fuel rest = (sscanf rest).toList := by
  cases fuel with
  | zero => cases hfuel
  | succ fuel =>
    unfold parseVolumes
    split_ifs with hnil
    · rw [hnil]
      rfl
    · have hend : parseVolumes fuel [] = [] := by
        cases fuel with
        | zero => rfl
        | succ fuel => rfl
      rw [eatLine_last h, hend, List.append_nil]

theorem Line.FirstFields.unique {fields' : List Bytes} (h : line.FirstFields fields)
    (h' : line.FirstFields fields') (hlen : fields.length = fields'.length) : fields = fields' := by
  obtain ⟨t, r, hline, hwords, hends⟩ := h
  obtain ⟨t', r', hline', hwords', hends'⟩ := h'
  exact hwords.unique hwords' hends hends' (hline.symm.trans hline') hlen

theorem EntryOf.unique {v' : MountedVolume} (h : EntryOf v line) (h' : EntryOf v' line) :
    v = v' := by
  obtain ⟨fields, hfirst, hv⟩ := h
  obtain ⟨fields', hfirst', hv'⟩ := h'
  obtain ⟨hlen, rfl⟩ := volumeOf_eq_some hv
  obtain ⟨hlen', rfl⟩ := volumeOf_eq_some hv'
  rw [hfirst.unique hfirst' (hlen.trans hlen'.symm)]

/-- A line that fits is read, when what is left of the text goes on behind its fields. -/
theorem Line.Fits.sscanf {n : Nat} (h : line.Fits n) (hrest : 0 ∉ rest)
    (htext : ∀ t r, line.text = t ++ r → Ends r → t.length ≤ n →
      ∃ r', rest = t ++ r' ∧ Ends r') :
    ∃ v, sscanf rest = some v ∧ EntryOf v line := by
  obtain ⟨fields, t, r, hline, hwords, hends, hfits, hn⟩ := h
  obtain ⟨r', rfl, hends'⟩ := htext t r hline hends hn
  obtain ⟨v, hv⟩ := volumeOf_fits hfits
  refine ⟨v, ?_, fields, ⟨t, r, hline, hwords, hends⟩, hv⟩
  rw [Mounts.sscanf, cstr_of_zero_notMem hrest, scanWords_complete hwords hends' hfits]
  exact hv

theorem zero_notMem_content (lines : List Line) : 0 ∉ content lines := by
  intro h
  obtain ⟨line, -, hmem⟩ := List.mem_flatMap.mp h
  rcases List.mem_append.mp hmem with htext | hnewline
  · exact (line.plain 0 htext).2 rfl
  · exact absurd (List.mem_singleton.mp hnewline) (by decide)

theorem readable_zero_iff : Readable 0 lines ↔ lines = [] := by
  cases lines with
  | nil => exact iff_of_true trivial rfl
  | cons line lines =>
    refine iff_of_false ?_ (List.cons_ne_nil _ _)
    rintro ⟨⟨fields, t, r, -, hwords, -, hfits, hzero⟩, -⟩
    have hne : fields ≠ [] := by
      rintro rfl
      cases hfits
    exact hwords.ne_nil hne (List.length_eq_zero_iff.mp (Nat.le_zero.mp hzero))

/-- The line that the text ends in is found when its fields are in the text. -/
theorem sscanf_last_iff {n : Nat} :
    (∃ v, sscanf (line.text.take n) = some v ∧ EntryOf v line) ↔ line.Fits n := by
  have hzero : 0 ∉ line.text.take n := fun h => (line.plain 0 (List.mem_of_mem_take h)).2 rfl
  constructor
  · rintro ⟨v, hread, fields, ⟨t, r, hline, hwords, hends⟩, hv⟩
    obtain ⟨fields', hv', hscan, hfits⟩ := sscanf_fits hread
    obtain rfl := volumeOf_inj hv hv'
    refine ⟨fields, t, r, hline, hwords, hends, hfits, ?_⟩
    by_contra hcut
    rw [cstr_of_zero_notMem hzero, hline,
      List.take_append_of_le_length (Nat.le_of_not_le hcut)] at hscan
    exact scanWords_cut hwords hfits (Nat.lt_of_not_le hcut) hscan
  · refine fun h => h.sscanf hzero fun t r hline hends hle =>
      ⟨r.take (n - t.length), ?_, hends.take _⟩
    rw [hline, List.take_append, List.take_of_length_le hle]

end Fields

/-- The loop finds a volume for each line when the fields fit and are in the text. -/
theorem parseVolumes_iff (lines : List Line) : ∀ n fuel : Nat,
    ((content lines).take n).length < fuel →
      (List.Forall₂ EntryOf (parseVolumes fuel ((content lines).take n)) lines ↔
        Readable n lines) := by
  induction lines with
  | nil =>
    intro n fuel hfuel
    have hempty : (content []).take n = [] := List.take_nil
    have hnone : parseVolumes fuel [] = [] := by
      cases fuel with
      | zero => rfl
      | succ fuel => rfl
    rw [hempty, hnone]
    exact iff_of_true .nil trivial
  | cons line lines ih =>
    intro n fuel hfuel
    have hcontent : content (line :: lines) = line.text ++ 10 :: content lines := by
      rw [content, List.flatMap_cons, List.append_assoc, List.singleton_append]
      rfl
    rw [hcontent] at hfuel ⊢
    rcases Nat.lt_or_ge line.text.length n with hwhole | hcut
    · -- the line is in the text as a whole
      obtain ⟨k, rfl⟩ := Nat.exists_eq_add_of_lt hwhole
      have htext : (line.text ++ 10 :: content lines).take (line.text.length + k + 1) =
          line.text ++ 10 :: (content lines).take k := by
        rw [Nat.add_assoc, List.take_length_add_append, List.take_succ_cons]
      have hzero : 0 ∉ line.text ++ 10 :: (content lines).take k := by
        intro h
        rcases List.mem_append.mp h with h | h
        · exact (line.plain 0 h).2 rfl
        rcases List.mem_cons.mp h with h | h
        · exact absurd h (by decide)
        · exact zero_notMem_content lines (List.mem_of_mem_take h)
      have hrest : ∀ t r, line.text = t ++ r → Ends r →
          t.length ≤ line.text.length + k + 1 →
            ∃ r', line.text ++ 10 :: (content lines).take k = t ++ r' ∧ Ends r' := by
        intro t r hline hends _
        refine ⟨r ++ 10 :: (content lines).take k, by rw [hline, List.append_assoc], ?_⟩
        exact hends.append fun c hc => Option.some.inj hc ▸ rfl
      rw [htext] at hfuel ⊢
      cases fuel with
      | zero => cases hfuel
      | succ fuel =>
      have hfuel' : ((content lines).take k).length < fuel := by
        rw [List.length_append, List.length_cons] at hfuel
        omega
      have hdrop : line.text.length + k + 1 - (line.text.length + 1) = k := by omega
      rw [Readable, hdrop, ← ih k fuel hfuel', parseVolumes,
        if_neg (fun h => List.cons_ne_nil _ _ (List.append_eq_nil_iff.mp h).2),
        eatLine_line line.newline_notMem]
      constructor
      · intro h
        have hfits : line.Fits (line.text.length + k + 1) := by
          obtain ⟨v, vs, hv, -, hparse⟩ := List.forall₂_cons_right_iff.mp h
          obtain ⟨fields, ⟨t, r, hline, hwords, hends⟩, hfields⟩ := hv
          have hmem : v ∈ parseVolumes (fuel + 1) (line.text ++ 10 :: (content lines).take k) := by
            rw [parseVolumes,
              if_neg (fun h => List.cons_ne_nil _ _ (List.append_eq_nil_iff.mp h).2),
              eatLine_line line.newline_notMem, hparse]
            exact List.mem_cons_self
          obtain ⟨fields', hfields', hfit⟩ := parseVolumes_fits hmem
          obtain rfl := volumeOf_inj hfields hfields'
          have hlen := congrArg List.length hline
          rw [List.length_append] at hlen
          exact ⟨fields, t, r, hline, hwords, hends, hfit, by omega⟩
        obtain ⟨v, hread, hv⟩ := hfits.sscanf hzero hrest
        rw [hread] at h
        exact ⟨hfits, (List.forall₂_cons.mp h).2⟩
      · rintro ⟨hfits, htail⟩
        obtain ⟨v, hread, hv⟩ := hfits.sscanf hzero hrest
        rw [hread]
        exact .cons hv htail
    · have htext : (line.text ++ 10 :: content lines).take n = line.text.take n :=
        List.take_append_of_le_length hcut
      have hnewline : 10 ∉ line.text.take n := fun h =>
        line.newline_notMem (List.mem_of_mem_take h)
      rw [htext] at hfuel ⊢
      rw [parseVolumes_last hfuel hnewline, Readable, ← sscanf_last_iff,
        Nat.sub_eq_zero_of_le (by omega), readable_zero_iff]
      constructor
      · intro h
        obtain ⟨v, vs, hv, hvs, hparse⟩ := List.forall₂_cons_right_iff.mp h
        cases hread : sscanf (line.text.take n) with
        | none =>
          rw [hread] at hparse
          cases hparse
        | some v' =>
          rw [hread] at hparse
          cases hparse
          exact ⟨⟨v, rfl, hv⟩, List.forall₂_nil_left_iff.mp hvs⟩
      · rintro ⟨⟨v, hread, hv⟩, rfl⟩
        rw [hread]
        exact .cons hv .nil

/-! ## The scan -/

/-- With the volumes of all lines in the table, what is mounted is found. -/
theorem find_isSome_iff {s : MountsState} {lines : List Line}
    (h : List.Forall₂ EntryOf s.used lines) (mount_point : Bytes) :
    (findMountedVolumeByMountPoint s mount_point).isSome = true ↔
      Mounted lines mount_point := by
  unfold findMountedVolumeByMountPoint Mounted
  rw [List.find?_isSome]
  simp only [decide_eq_true_eq]
  generalize s.used = used at h ⊢
  induction h with
  | nil => simp
  | @cons v line vs lines hv _ ih =>
    constructor
    · rintro ⟨w, hw, hpoint⟩
      rcases List.mem_cons.mp hw with rfl | hw
      · exact ⟨line, List.mem_cons_self, w, hv, hpoint⟩
      · obtain ⟨line', hline', hfound⟩ := ih.mp ⟨w, hw, hpoint⟩
        exact ⟨line', List.mem_cons_of_mem _ hline', hfound⟩
    · rintro ⟨line', hline', w, hentry, hpoint⟩
      rcases List.mem_cons.mp hline' with rfl | hline'
      · exact ⟨v, List.mem_cons_self, by rw [hv.unique hentry, hpoint]⟩
      · obtain ⟨w, hw, hpoint⟩ := ih.mpr ⟨line', hline', w, hentry, hpoint⟩
        exact ⟨w, List.mem_cons_of_mem _ hw, hpoint⟩

/-- The loop puts what it finds into an empty table, or there is too much for it. -/
theorem scan_cases (s : MountsState) (lines : List Line) {vs : List MountedVolume}
    (hvs : vs = parseVolumes (((content lines).take 2047).length + 1) ((content lines).take 2047)) :
    (vs.length ≤ numv ∧ ∃ s', scanMountedVolumes (some (content lines)) s = .done (0, s') ∧
        s'.used = vs) ∨
      (numv < vs.length ∧ scanMountedVolumes (some (content lines)) s = .fault) := by
  have hscan : scanMountedVolumes (some (content lines)) s =
      (s.clear.addAll vs >>= fun s => .done (0, s)) := by
    show (scanLoop _ _ s.clear >>= _) = _
    rw [scanLoop_eq (Nat.lt_succ_self _), hvs]
  rw [hscan]
  have hcases := s.clear.addAll_cases vs
  rw [s.clear_used, s.clear_length, List.length_nil, Nat.zero_add] at hcases
  refine hcases.imp (fun ⟨hroom, s', hrun, hused⟩ => ⟨hroom, s', ?_, hused⟩)
    fun ⟨hfull, hrun⟩ => ⟨hfull, ?_⟩
  · rw [hrun]
    rfl
  · rw [hrun]
    rfl

/-- A complete table has not more volumes than it has room for. -/
theorem ScansAll.length_le {s : MountsState} {lines : List Line} (h : ScansAll s lines) :
    lines.length ≤ numv := by
  obtain ⟨s', -, hall, -⟩ := h
  have hcount := s'.count_le
  have hlen : s'.used.length = lines.length := hall.length_eq
  rw [s'.used_length] at hlen
  rcases s'.allocd with hzero | hnumv
  · omega
  · omega

/-- Behind a scan the table has the volume of each line, and what is mounted is found in it,
exactly when there are at most 32 lines, and the first four fields of each fit the arrays and
end among the 2047 bytes that are read. -/
theorem scanMountedVolumes_iff (s : MountsState) (lines : List Line) :
    ScansAll s lines ↔ lines.length ≤ numv ∧ Readable 2047 lines := by
  have hparse := parseVolumes_iff lines 2047 _ (Nat.lt_succ_self _)
  rw [← hparse]
  constructor
  · intro h
    refine ⟨h.length_le, ?_⟩
    obtain ⟨s₁, hrun₁, hall, -⟩ := h
    rcases scan_cases s lines rfl with ⟨-, s', hrun, hused⟩ | ⟨-, hrun⟩
    · cases hrun₁.symm.trans hrun
      exact hused ▸ hall
    · cases hrun₁.symm.trans hrun
  · rintro ⟨hlen, hall⟩
    rcases scan_cases s lines rfl with ⟨-, s', hrun, hused⟩ | ⟨hfull, -⟩
    · rw [← hused] at hall
      exact ⟨s', hrun, hall, find_isSome_iff hall⟩
    · exact absurd (hall.length_eq ▸ hfull) (Nat.not_lt_of_le hlen)

/-- A line with four fields. -/
def shortLine : Line where
  text := ascii "a b c d"
  plain := by
    intro c hc
    have hall : (ascii "a b c d").all (fun c => c ≠ 10 && c ≠ 0) = true := by decide
    simpa using List.all_eq_true.mp hall c hc

/-- The volume of line 33 is written behind the table. -/
theorem scanMountedVolumes_overflows :
    ¬∀ (s : MountsState) (lines : List Line), ScansAll s lines := by
  intro h
  have hlen := (h gMountsState (List.replicate 33 shortLine)).length_le
  exact absurd hlen (by decide)

end BootableRecovery.Mounts
