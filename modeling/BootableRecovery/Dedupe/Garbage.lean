import BootableRecovery.Dedupe.Gc

/-!
# `dedupe.c`: garbage of well-formed manifests

A well-formed manifest is a list of records whose names have no tab and no newline.
Version 2 has a header and times, version 1 has not, so without a record it is an
empty file. What `gc` does to it depends on whether its lines, keys and paths fit
into the buffers.

Main results:
* `gcManifest_text`: when a well-formed manifest is read, and what it names.
* `gc_removes_iff`: the garbage is removed, no more and no less, if and only if no
  manifest is empty and all fits into the buffers.
-/

namespace BootableRecovery.Dedupe

/-! ## Well-formed manifests -/

/-- The versions of a manifest that `gc` reads. -/
inductive Version where
  | one
  | two
  deriving DecidableEq

def Version.number : Version → Int
  | .one => 1
  | .two => 2

/-- The times of a line. -/
def Version.times : Version → Stat → List Bytes
  | .one, _ => []
  | .two, st => [printNat 10 st.st_atime, printNat 10 st.st_mtime, printNat 10 st.st_ctime]

/-- The fields of a line in front of the path. -/
def Version.front (v : Version) (type : UInt8) (st : Stat) : List Bytes :=
  [[type], printNat 8 (st.st_mode &&& MODE_MASK), printInt (wrap32 st.st_uid),
    printInt (wrap32 st.st_gid)] ++ v.times st

/-- Fields, each with its tab. -/
def tabbed (fields : List Bytes) : Bytes := fields.flatMap (· ++ [tab])

/-- A file with the key of its blob, a directory or a link. -/
inductive Record where
  | file (st : Stat) (path key : Bytes) (size : Int)
  | dir (st : Stat) (path : Bytes)
  | link (st : Stat) (path target : Bytes)

namespace Record

def type : Record → UInt8
  | file _ _ _ _ => 102
  | dir _ _ => 100
  | link _ _ _ => 108

def stat : Record → Stat
  | file st _ _ _ => st
  | dir st _ => st
  | link st _ _ => st

def path : Record → Bytes
  | file _ path _ _ => path
  | dir _ path => path
  | link _ path _ => path

/-- What follows the path, up to the newline. -/
def fields : Record → Bytes
  | file _ _ key size => key ++ tab :: (printInt (wrap32 size) ++ [tab])
  | dir _ _ => []
  | link _ _ target => target ++ [tab]

def keys : Record → List Bytes
  | file _ _ key _ => [key]
  | _ => []

/-- The names in a record have no tab and no newline. -/
def Valid : Record → Prop
  | file _ path key _ => FieldText path ∧ FieldText key
  | dir _ path => FieldText path
  | link _ path target => FieldText path ∧ FieldText target

/-- The line without its newline. -/
def body (v : Version) (r : Record) : Bytes :=
  tabbed (v.front r.type r.stat) ++ (r.path ++ tab :: r.fields)

def line (v : Version) (r : Record) : Bytes := r.body v ++ [10]

end Record

/-- A manifest that was written by `dedupe c`, or by its first version. -/
structure Manifest where
  version : Version
  records : List Record
  valid : ∀ r ∈ records, r.Valid

namespace Manifest

def lines (m : Manifest) : List Bytes := m.records.map (Record.line m.version)

def text (m : Manifest) : Bytes :=
  match m.version with
  | .one => m.lines.flatten
  | .two => header ++ m.lines.flatten

/-- The keys that the manifest references. -/
def keys (m : Manifest) : List Bytes := m.records.flatMap Record.keys

/-- The manifest is not an empty file, its lines and keys fit into the buffers of
`gc`, and so do the paths of its blobs. -/
structure Fits (blob_dir : Bytes) (m : Manifest) : Prop where
  text_ne : m.text ≠ []
  line_lt : ∀ line ∈ m.lines, line.length < PATH_MAX
  key_lt : ∀ key ∈ m.keys, key.length < 128
  blob_lt : ∀ key ∈ m.keys, (blob_dir ++ 47 :: key).length < PATH_MAX

end Manifest

/-- Version 2 is printed by `print_stat`. -/
theorem front_two (type : UInt8) (st : Stat) (path rest : Bytes) :
    tabbed (Version.two.front type st) ++ (path ++ tab :: rest) = print_stat type st path ++ rest := by
  have hfields : ∀ mode uid gid atime mtime ctime : Bytes,
      tabbed ([[type], mode, uid, gid] ++ [atime, mtime, ctime]) ++ (path ++ tab :: rest) =
        [type, tab] ++ mode ++ [tab] ++ uid ++ [tab] ++ gid ++ [tab] ++ atime ++ [tab] ++ mtime ++
          [tab] ++ ctime ++ [tab] ++ path ++ [tab] ++ rest := by simp [tabbed]
  exact hfields ..

/-- The lines of version 2 are those that `dedupe c` prints. -/
theorem line_two_file (st : Stat) (path key : Bytes) (size : Int) :
    (Record.file st path key size).line .two =
      print_stat 102 st path ++ fileFields key (wrap32 size) := by
  have hbody : (Record.file st path key size).body .two = print_stat 102 st path ++ _ :=
    front_two 102 st path _
  rw [Record.line, hbody, fileFields_eq, List.append_assoc, Record.fields]
  rfl

theorem line_two_dir (st : Stat) (path : Bytes) :
    (Record.dir st path).line .two = dirLine path st := by
  have hbody : (Record.dir st path).body .two = print_stat 100 st path ++ [] :=
    front_two 100 st path []
  rw [Record.line, hbody, List.append_nil, dirLine]

theorem line_two_link (st : Stat) (path target : Bytes) :
    (Record.link st path target).line .two = linkLine path st target := by
  have hbody : (Record.link st path target).body .two = print_stat 108 st path ++ _ :=
    front_two 108 st path _
  simp only [Record.line, hbody, linkLine, linkFields, Record.fields, List.append_assoc,
    List.cons_append, List.nil_append]

/-! ## One line -/

theorem Record.type_fieldText (r : Record) : FieldText [r.type] := by
  cases r with
  | file => exact (show FieldText [102] by decide)
  | dir => exact (show FieldText [100] by decide)
  | link => exact (show FieldText [108] by decide)

theorem Record.Valid.path {r : Record} (h : r.Valid) : FieldText r.path := by
  cases r with
  | file => exact h.1
  | dir => exact h
  | link => exact h.1

/-- The fields in front of the path have no tab and no newline. -/
theorem front_fieldText (v : Version) {type : UInt8} (h : FieldText [type]) (st : Stat) :
    ∀ field ∈ v.front type st, FieldText field := by
  have htimes : ∀ field ∈ v.times st, FieldText field := by
    cases v with
    | one => exact List.forall_mem_nil _
    | two =>
      exact List.forall_mem_cons.mpr ⟨fieldText_printNat (by omega) le_rfl,
        List.forall_mem_cons.mpr ⟨fieldText_printNat (by omega) le_rfl,
          List.forall_mem_singleton.mpr (fieldText_printNat (by omega) le_rfl)⟩⟩
  refine List.forall_mem_append.mpr ⟨List.forall_mem_cons.mpr ⟨h, List.forall_mem_cons.mpr
    ⟨fieldText_printNat (by omega) (by omega), List.forall_mem_cons.mpr ⟨fieldText_printInt _,
      List.forall_mem_singleton.mpr (fieldText_printInt _)⟩⟩⟩, htimes⟩

theorem newline_notMem_tabbed {fields : List Bytes} (h : ∀ field ∈ fields, FieldText field) :
    10 ∉ tabbed fields := by
  intro hmem
  obtain ⟨field, hfield, hmem⟩ := List.mem_flatMap.mp hmem
  rcases List.mem_append.mp hmem with hmem | hmem
  · exact (h field hfield).2.1 hmem
  · exact absurd hmem (by decide)

theorem Record.Valid.newline_notMem {r : Record} (h : r.Valid) (v : Version) : 10 ∉ r.body v := by
  have hfront := newline_notMem_tabbed (front_fieldText v r.type_fieldText r.stat)
  have hpath := h.path.2.1
  have htab : ¬ (10 : UInt8) = tab := by decide
  have hfields : 10 ∉ r.fields := by
    cases r with
    | file st path key size => exact newline_notMem_fileFields h.2 _
    | dir st path => exact List.not_mem_nil
    | link st path target => simp [Record.fields, h.2.2.1, htab]
  simp only [Record.body, List.mem_append, List.mem_cons, hfront, hpath, htab, hfields, or_false,
    not_false_eq_true]

theorem tabbed_length (fields : List Bytes) :
    (tabbed fields).length = (fields.map fun field => field.length + 1).sum := by
  simp [tabbed, List.length_flatMap]

theorem tabbed_length_lt {n : Nat} {fields : List Bytes} (h : ∀ field ∈ fields, field.length < n) :
    (tabbed fields).length ≤ fields.length * n := by
  induction fields with
  | nil => exact Nat.zero_le _
  | cons field fields ih =>
    have hfield := h field List.mem_cons_self
    have hrest := ih fun field' hmem => h field' (List.mem_cons_of_mem _ hmem)
    rw [tabbed_length] at hrest ⊢
    rw [List.map_cons, List.sum_cons, List.length_cons, Nat.add_mul]
    omega

/-- The part in front of the path fits into the line buffer. -/
theorem front_length (v : Version) (type : UInt8) (st : Stat) :
    (tabbed (v.front type st)).length < PATH_MAX - 1 := by
  have htimes : ∀ field ∈ v.times st, field.length < 32 := by
    cases v with
    | one => exact List.forall_mem_nil _
    | two =>
      exact List.forall_mem_cons.mpr ⟨printNat_time_length st.atime_lt, List.forall_mem_cons.mpr
        ⟨printNat_time_length st.mtime_lt, List.forall_mem_singleton.mpr
          (printNat_time_length st.ctime_lt)⟩⟩
  have hall : ∀ field ∈ v.front type st, field.length < 32 :=
    List.forall_mem_append.mpr ⟨List.forall_mem_cons.mpr ⟨by simp, List.forall_mem_cons.mpr
      ⟨lt_trans (printNat_mode_length st.st_mode) (by decide), List.forall_mem_cons.mpr
        ⟨printInt_wrap32_length st.st_uid, List.forall_mem_singleton.mpr
          (printInt_wrap32_length st.st_gid)⟩⟩⟩, htimes⟩
  have hcount : (v.front type st).length ≤ 7 := by
    cases v with
    | one => simp [Version.front, Version.times]
    | two => simp [Version.front, Version.times]
  calc (tabbed (v.front type st)).length ≤ (v.front type st).length * 32 := tabbed_length_lt hall
    _ ≤ 7 * 32 := Nat.mul_le_mul_right 32 hcount
    _ < PATH_MAX - 1 := by decide

/-- Behind the path a line has at most two tabs. -/
theorem Record.Valid.count_fields {r : Record} (h : r.Valid) : r.fields.count tab ≤ 2 := by
  cases r with
  | file st path key size =>
    have hkey := List.count_eq_zero.mpr h.2.1
    have hsize := List.count_eq_zero.mpr (fieldText_printInt (wrap32 size)).1
    simp [Record.fields, hkey, hsize]
  | dir st path => simp [Record.fields]
  | link st path target =>
    have htarget := List.count_eq_zero.mpr h.2.1
    simp [Record.fields, htarget]

/-- A token ends at a tab. -/
theorem tokenize_count {sep : UInt8} {size : Nat} {line field rest : Bytes}
    (h : tokenize sep size line = .done (field, rest)) : rest.count sep < line.count sep := by
  induction line generalizing size field with
  | nil => cases size <;> simp [tokenize] at h
  | cons c line ih =>
    cases size with
    | zero => simp [tokenize] at h
    | succ size =>
      rw [tokenize] at h
      split at h
      · rename_i hsep
        obtain ⟨-, rfl⟩ := Prod.mk.inj (Outcome.done.inj h)
        simp [hsep]
      · rename_i hsep
        split at h
        · cases h
        · obtain ⟨⟨out, rest'⟩, htoken, h⟩ := Outcome.bind_eq_done.mp h
          obtain ⟨-, rfl⟩ := Prod.mk.inj (Outcome.done.inj h)
          rw [List.count_cons_of_ne hsep]
          exact ih htoken

/-- The head of a line has five tabs. -/
theorem tokenizeHead_count {version : Int} {line rest : Bytes} {head : Head}
    (h : tokenizeHead version line = .done (head, rest)) : 5 ≤ line.count tab := by
  unfold tokenizeHead at h
  obtain ⟨⟨type, line₁⟩, htype, h⟩ := Outcome.bind_eq_done.mp h
  obtain ⟨⟨mode, line₂⟩, hmode, h⟩ := Outcome.bind_eq_done.mp h
  obtain ⟨⟨uid, line₃⟩, huid, h⟩ := Outcome.bind_eq_done.mp h
  obtain ⟨⟨gid, line₄⟩, hgid, h⟩ := Outcome.bind_eq_done.mp h
  obtain ⟨⟨times, line₅⟩, htimes, h⟩ := Outcome.bind_eq_done.mp h
  obtain ⟨⟨filename, line₆⟩, hfilename, h⟩ := Outcome.bind_eq_done.mp h
  have hle : line₅.count tab ≤ line₄.count tab := by
    unfold tokenizeTimes at htimes
    split at htimes
    · obtain ⟨⟨at', l₁⟩, hat, htimes⟩ := Outcome.bind_eq_done.mp htimes
      obtain ⟨⟨mt, l₂⟩, hmt, htimes⟩ := Outcome.bind_eq_done.mp htimes
      obtain ⟨⟨ct, l₃⟩, hct, htimes⟩ := Outcome.bind_eq_done.mp htimes
      obtain ⟨-, rfl⟩ := Prod.mk.inj (Outcome.done.inj htimes)
      have hat := tokenize_count hat
      have hmt := tokenize_count hmt
      have hct := tokenize_count hct
      omega
    · obtain ⟨-, rfl⟩ := Prod.mk.inj (Outcome.done.inj htimes)
      exact le_rfl
  have htype := tokenize_count htype
  have hmode := tokenize_count hmode
  have huid := tokenize_count huid
  have hgid := tokenize_count hgid
  have hfilename := tokenize_count hfilename
  omega

/-- The head of a record is read again. -/
theorem tokenizeHead_front (v : Version) {r : Record} (h : r.Valid)
    (hlen : r.path.length < PATH_MAX) (rest : Bytes) :
    ∃ head, head.type = [r.type] ∧ tokenizeHead v.number
      (tabbed (v.front r.type r.stat) ++ (r.path ++ tab :: rest)) = .done (head, rest) := by
  have htype := r.type_fieldText
  generalize r.type = type at *
  cases v with
  | two =>
    rw [front_two, Version.number, tokenizeHead_print_stat htype r.stat h.path hlen]
    exact ⟨_, rfl, rfl⟩
  | one =>
    have htypeRead : ∀ line, tokenize tab 4 ([type] ++ tab :: line) = .done ([type], line) :=
      htype.tokenize (by simp)
    have hmode := (fieldText_printNat (by omega) (by omega) : FieldText (printNat 8
      (r.stat.st_mode &&& MODE_MASK))).tokenize (printNat_mode_length r.stat.st_mode)
    have hint : ∀ (n : Int) (line : Bytes), tokenize tab 32 (printInt (wrap32 n) ++ tab :: line) =
        .done (printInt (wrap32 n), line) := fun n =>
      (fieldText_printInt _).tokenize (printInt_wrap32_length n)
    have hfields : ∀ mode uid gid : Bytes,
        tabbed ([[type], mode, uid, gid] ++ []) ++ (r.path ++ tab :: rest) = [type] ++ tab ::
          (mode ++ tab :: (uid ++ tab :: (gid ++ tab :: (r.path ++ tab :: rest)))) := by
      simp [tabbed]
    have hshape : tabbed (Version.one.front type r.stat) ++ (r.path ++ tab :: rest) = [type] ++
        tab :: (printNat 8 (r.stat.st_mode &&& MODE_MASK) ++ tab :: (printInt (wrap32
          r.stat.st_uid) ++ tab :: (printInt (wrap32 r.stat.st_gid) ++ tab ::
            (r.path ++ tab :: rest)))) := hfields ..
    refine ⟨⟨[type], printNat 8 (r.stat.st_mode &&& MODE_MASK), printInt (wrap32 r.stat.st_uid),
      printInt (wrap32 r.stat.st_gid), [], r.path⟩, rfl, ?_⟩
    rw [hshape]
    unfold tokenizeHead tokenizeTimes
    rw [htypeRead, Outcome.done_bind]
    simp only
    rw [hmode, Outcome.done_bind]
    simp only
    rw [hint, Outcome.done_bind]
    simp only
    rw [hint, Outcome.done_bind]
    simp only
    rw [if_neg (show ¬ (2 : Int) ≤ Version.one.number by decide), Outcome.done_bind]
    simp only
    rw [h.path.tokenize hlen, Outcome.done_bind]

theorem tokenizeFile_fields {st : Stat} {path key : Bytes} (h : FieldText key) (size : Int) :
    tokenizeFile ((Record.file st path key size).fields ++ [10]) =
      if key.length < 128 then .done (key, printInt (wrap32 size)) else .fault := by
  have hsize := (fieldText_printInt (wrap32 size)).tokenize (printInt_wrap32_length size)
  have hshape : (Record.file st path key size).fields ++ [10] =
      key ++ tab :: (printInt (wrap32 size) ++ tab :: [10]) := by
    simp only [Record.fields, List.append_assoc, List.cons_append, List.nil_append]
  rw [hshape]
  unfold tokenizeFile
  split
  · rename_i hfit
    rw [h.tokenize hfit, Outcome.done_bind]
    simp only
    rw [hsize, Outcome.done_bind]
  · rename_i hlong
    rw [tokenize_long h.1 (by omega), Outcome.fault_bind]

theorem Record.line_eq (v : Version) (r : Record) :
    r.line v = tabbed (v.front r.type r.stat) ++ (r.path ++ tab :: (r.fields ++ [10])) := by
  simp only [Record.line, Record.body, List.append_assoc, List.cons_append]

/-- A record whose path fits adds its key, which has to fit too. -/
theorem usedFiles_line (v : Version) {r : Record} (h : r.Valid) (hlen : r.path.length < PATH_MAX)
    {lines keys : List Bytes} : usedFiles v.number (r.line v :: lines) = .done keys ↔
      (∀ key ∈ r.keys, key.length < 128) ∧
        ∃ rest, usedFiles v.number lines = .done rest ∧ keys = r.keys ++ rest := by
  obtain ⟨head, htype, hhead⟩ := tokenizeHead_front v h hlen (r.fields ++ [10])
  rw [usedFiles, Record.line_eq, hhead, Outcome.done_bind]
  simp only
  rw [htype]
  cases r with
  | file st path key size =>
    rw [if_pos (show [(Record.file st path key size).type] = ascii "f" by rfl),
      tokenizeFile_fields h.2]
    simp only [Record.keys, List.forall_mem_singleton, List.singleton_append]
    split
    · rename_i hfit
      rw [Outcome.done_bind, Outcome.bind_eq_done]
      constructor
      · rintro ⟨rest, hrest, hkeys⟩
        exact ⟨hfit, rest, hrest, (Outcome.done.inj hkeys).symm⟩
      · rintro ⟨-, rest, hrest, rfl⟩
        exact ⟨rest, hrest, rfl⟩
    · rename_i hlong
      rw [Outcome.fault_bind]
      exact ⟨nofun, fun hfit => absurd hfit.1 hlong⟩
  | dir st path =>
    rw [if_neg (show ¬ [(Record.dir st path).type] = ascii "f" from
      (by decide : ¬ [(100 : UInt8)] = ascii "f"))]
    simp [Record.keys, eq_comm]
  | link st path target =>
    rw [if_neg (show ¬ [(Record.link st path target).type] = ascii "f" from
      (by decide : ¬ [(108 : UInt8)] = ascii "f"))]
    simp [Record.keys, eq_comm]

/-- What was read of the lines was read of each of them. -/
theorem usedFiles_cons {version : Int} {line : Bytes} {lines keys : List Bytes}
    (h : usedFiles version (line :: lines) = .done keys) :
    (∃ head rest, tokenizeHead version line = .done (head, rest)) ∧
      ∃ keys', usedFiles version lines = .done keys' := by
  rw [usedFiles] at h
  obtain ⟨⟨head, rest⟩, hhead, h⟩ := Outcome.bind_eq_done.mp h
  refine ⟨⟨head, rest, hhead⟩, ?_⟩
  simp only at h
  split at h
  · obtain ⟨⟨used, sizeStr⟩, -, h⟩ := Outcome.bind_eq_done.mp h
    obtain ⟨keys', hkeys, -⟩ := Outcome.bind_eq_done.mp h
    exact ⟨keys', hkeys⟩
  · exact ⟨keys, h⟩

/-! ## Lines that do not fit -/

/-- A line that fits is read as it is. -/
theorem fgetsAll_line {size : Nat} {line : Bytes} (h : IsLine line) (hlt : line.length < size)
    (rest : Bytes) : fgetsAll size (line ++ rest) = line :: fgetsAll size rest := by
  obtain ⟨body, hbody, rfl⟩ := h
  rw [List.length_append, List.length_singleton] at hlt
  have htake := takeLine_line hbody (show body.length < size - 1 by omega) rest
  rw [List.append_assoc, List.singleton_append, fgetsAll_of_ne (by omega) (by simp), htake]

/-- Of a line that does not fit, a second piece is read as a line of its own. -/
theorem fgetsAll_long {size : Nat} (hsize : 1 < size) {line : Bytes} (h : IsLine line)
    (hlong : size ≤ line.length) (rest : Bytes) :
    ∃ first second pieces, fgetsAll size (line ++ rest) = first :: second :: pieces ∧
      second <+: line.drop (size - 1) := by
  obtain ⟨body, hbody, rfl⟩ := h
  rw [List.length_append, List.length_singleton] at hlong
  have hle : size - 1 ≤ body.length := by omega
  have hdrop : (body ++ [10]).drop (size - 1) = body.drop (size - 1) ++ [10] :=
    List.drop_append_of_le_length hle
  have htake := takeLine_long hbody hle (10 :: rest)
  have hrest : 10 ∉ body.drop (size - 1) := fun hmem => hbody (List.mem_of_mem_drop hmem)
  rw [List.append_assoc, List.singleton_append, fgetsAll_of_ne hsize (by simp), htake,
    fgetsAll_of_ne hsize (by simp), hdrop]
  refine ⟨_, _, _, rfl, ?_⟩
  generalize body.drop (size - 1) = piece at *
  rcases Nat.lt_or_ge piece.length (size - 1) with hlt | hge
  · rw [takeLine_line hrest hlt]
  · rw [takeLine_long hrest hge]
    exact (List.take_prefix _ _).trans (List.prefix_append _ _)

theorem Record.Valid.isLine {r : Record} (h : r.Valid) (v : Version) : IsLine (r.line v) :=
  ⟨r.body v, h.newline_notMem v, rfl⟩

/-- The second piece of a line begins in the path or behind it, so it has too few
tabs. -/
theorem count_second {v : Version} {r : Record} (h : r.Valid) {second : Bytes}
    (hsecond : second <+: (r.line v).drop (PATH_MAX - 1)) : second.count tab ≤ 3 := by
  have hfront := front_length v r.type r.stat
  have htail : (r.line v).drop (PATH_MAX - 1) <:+ r.path ++ tab :: (r.fields ++ [10]) := by
    rw [Record.line_eq, List.drop_append, List.drop_of_length_le hfront.le, List.nil_append]
    exact List.drop_suffix _ _
  have hpath := List.count_eq_zero.mpr h.path.1
  have hfields := h.count_fields
  calc second.count tab ≤ ((r.line v).drop (PATH_MAX - 1)).count tab := hsecond.sublist.count_le _
    _ ≤ (r.path ++ tab :: (r.fields ++ [10])).count tab := htail.sublist.count_le _
    _ = r.fields.count tab + 1 := by
      rw [List.count_append, List.count_cons_self, List.count_append, hpath,
        show [(10 : UInt8)].count tab = 0 by decide]
      omega
    _ ≤ 3 := by omega

/-- The records of a manifest are read when their lines and keys fit. -/
theorem usedFiles_records (v : Version) {records : List Record} (h : ∀ r ∈ records, r.Valid)
    {keys : List Bytes} :
    usedFiles v.number (fgetsAll PATH_MAX (records.map (Record.line v)).flatten) = .done keys ↔
      (∀ r ∈ records, (r.line v).length < PATH_MAX ∧ ∀ key ∈ r.keys, key.length < 128) ∧
        keys = records.flatMap Record.keys := by
  induction records generalizing keys with
  | nil => simp [usedFiles, fgetsAll_nil, eq_comm]
  | cons r records ih =>
    obtain ⟨hr, hrest⟩ := List.forall_mem_cons.mp h
    rw [List.map_cons, List.flatten_cons, List.forall_mem_cons, List.flatMap_cons]
    rcases Nat.lt_or_ge (r.line v).length PATH_MAX with hlt | hlong
    · have hpath : r.path.length < PATH_MAX := by
        refine lt_of_le_of_lt ?_ hlt
        rw [Record.line_eq]
        simp only [List.length_append]
        omega
      rw [fgetsAll_line (hr.isLine v) hlt, usedFiles_line v hr hpath]
      constructor
      · rintro ⟨hkeys, rest, hread, rfl⟩
        obtain ⟨hall, rfl⟩ := (ih hrest).mp hread
        exact ⟨⟨⟨hlt, hkeys⟩, hall⟩, rfl⟩
      · rintro ⟨⟨⟨-, hkeys⟩, hall⟩, rfl⟩
        exact ⟨hkeys, _, (ih hrest).mpr ⟨hall, rfl⟩, rfl⟩
    · obtain ⟨first, second, pieces, hpieces, hsecond⟩ :=
        fgetsAll_long (by decide) (hr.isLine v) hlong (records.map (Record.line v)).flatten
      rw [hpieces]
      constructor
      · intro hread
        obtain ⟨-, keys', hread⟩ := usedFiles_cons hread
        obtain ⟨⟨head, rest, hhead⟩, -⟩ := usedFiles_cons hread
        have hfive := tokenizeHead_count hhead
        have hthree := count_second hr hsecond
        omega
      · exact fun hall => absurd hall.1.1.1 (by omega)

/-! ## Manifests -/

/-- A line is not a version line. -/
theorem readVersion_line {type : UInt8} (h : FieldText [type]) (rest : Bytes) :
    readVersion (type :: tab :: rest) = .done (1, type :: tab :: rest) := by
  have htype : type ≠ 10 := fun he => h.2.1 (by simp [he])
  have hzero : type ≠ 0 := fun he => h.2.2 (by simp [he])
  obtain ⟨n, hn⟩ : ∃ n, PATH_MAX - 1 = n + 1 + 1 := ⟨4093, rfl⟩
  have hget : fgets PATH_MAX (type :: tab :: rest) =
      some (type :: tab :: (takeLine n rest).1, (takeLine n rest).2) := by
    rw [fgets, if_neg (by simp), hn]
    simp only [takeLine, if_neg htype, if_neg (show tab ≠ 10 by decide)]
  have hscan : scanVersion (cstr (type :: tab :: (takeLine n rest).1)) = none := by
    have hcstr : cstr (type :: tab :: (takeLine n rest).1) =
        type :: tab :: cstr (takeLine n rest).1 := by
      simp [cstr, hzero, tab]
    rw [hcstr, scanVersion, if_neg]
    intro hprefix
    obtain ⟨s, hs⟩ := hprefix
    have hsecond := congrArg (fun l : Bytes => l[1]?) hs
    exact absurd hsecond (by simp [ascii, tab])
  unfold readVersion
  rw [hget]
  simp only
  rw [hscan]

theorem Record.line_cons (v : Version) (r : Record) :
    ∃ rest, r.line v = r.type :: tab :: rest := by
  have hcons : ∀ fields times : List Bytes, ([r.type] :: fields) ++ times =
      [r.type] :: (fields ++ times) := fun fields times => List.cons_append
  rw [Record.line_eq, Version.front, hcons, tabbed, List.flatMap_cons, List.singleton_append,
    List.cons_append, List.cons_append, List.cons_append]
  exact ⟨_, rfl⟩

namespace Manifest

/-- An empty manifest is read from a buffer that was not written. -/
theorem readVersion_text (m : Manifest) : readVersion m.text =
    if m.text = [] then .fault else .done (m.version.number, m.lines.flatten) := by
  obtain ⟨version, records, valid⟩ := m
  cases version with
  | two =>
    rw [if_neg (by simp [text, header])]
    exact readVersion_header _
  | one =>
    cases records with
    | nil => rfl
    | cons r records =>
      obtain ⟨rest, hrest⟩ := r.line_cons .one
      have htext : text ⟨.one, r :: records, valid⟩ =
          r.type :: tab :: (rest ++ (records.map (Record.line .one)).flatten) := by
        simp [text, lines, hrest]
      rw [htext, readVersion_line r.type_fieldText, if_neg (by simp), ← htext]
      rfl

/-- A well-formed manifest is read if it is not empty and fits into the buffers, and
tells its keys. -/
theorem gcManifest_text (m : Manifest) {result : Option (List Bytes)} :
    gcManifest m.text = .done result ↔
      (m.text ≠ [] ∧ (∀ line ∈ m.lines, line.length < PATH_MAX) ∧
        ∀ key ∈ m.keys, key.length < 128) ∧ result = some m.keys := by
  have hversion : ¬ DEDUPE_VERSION < m.version.number := by
    cases m.version with
    | one => decide
    | two => decide
  have hall : (∀ r ∈ m.records, (r.line m.version).length < PATH_MAX ∧
      ∀ key ∈ r.keys, key.length < 128) ↔
      (∀ line ∈ m.lines, line.length < PATH_MAX) ∧ ∀ key ∈ m.keys, key.length < 128 := by
    simp only [lines, keys, List.forall_mem_map, List.mem_flatMap, forall_exists_index, and_imp]
    constructor
    · exact fun h => ⟨fun r hr => (h r hr).1, fun key r hr hkey => (h r hr).2 key hkey⟩
    · exact fun h r hr => ⟨h.1 r hr, fun key hkey => h.2 key r hr hkey⟩
  have hused : ∀ keys, usedFiles m.version.number (fgetsAll PATH_MAX m.lines.flatten) = .done keys ↔
      _ := fun keys => usedFiles_records m.version m.valid
  rw [gcManifest, readVersion_text]
  by_cases hnil : m.text = []
  · rw [if_pos hnil, Outcome.fault_bind]
    exact ⟨nofun, fun h => absurd hnil h.1.1⟩
  · rw [if_neg hnil, Outcome.done_bind]
    simp only
    rw [if_neg hversion, Outcome.bind_eq_done]
    constructor
    · rintro ⟨used, hread, hresult⟩
      obtain ⟨hfit, rfl⟩ := (hused used).mp hread
      exact ⟨⟨hnil, hall.mp hfit⟩, (Outcome.done.inj hresult).symm⟩
    · rintro ⟨⟨-, hfit⟩, rfl⟩
      exact ⟨_, (hused _).mpr ⟨hall.mpr hfit, rfl⟩, rfl⟩

/-- The paths of the blobs that the manifest references. -/
def blobs (blob_dir : Bytes) (m : Manifest) : List Bytes :=
  m.keys.map fun key => blob_dir ++ 47 :: key

theorem manifestBlobs_text (blob_dir : Bytes) (m : Manifest) {result : Option (List Bytes)} :
    manifestBlobs blob_dir m.text = .done result ↔
      m.Fits blob_dir ∧ result = some (m.blobs blob_dir) := by
  rw [manifestBlobs, Outcome.bind_eq_done]
  constructor
  · rintro ⟨names, hread, h⟩
    obtain ⟨⟨htext, hline, hkey⟩, rfl⟩ := m.gcManifest_text.mp hread
    obtain ⟨paths, hpaths, h⟩ := Outcome.bind_eq_done.mp h
    obtain ⟨hblob, rfl⟩ := blobPaths_eq_done.mp hpaths
    exact ⟨⟨htext, hline, hkey, hblob⟩, (Outcome.done.inj h).symm⟩
  · rintro ⟨⟨htext, hline, hkey, hblob⟩, rfl⟩
    refine ⟨_, m.gcManifest_text.mpr ⟨⟨htext, hline, hkey⟩, rfl⟩, ?_⟩
    exact Outcome.bind_eq_done.mpr ⟨_, blobPaths_eq_done.mpr ⟨hblob, rfl⟩, rfl⟩

end Manifest

theorem gcManifests_texts {blob_dir : Bytes} {manifests : List Manifest} {used_files : List Bytes}
    {scan : Scan} :
    gcManifests blob_dir (manifests.map fun m => some m.text) used_files = .done scan ↔
      (∀ m ∈ manifests, m.Fits blob_dir) ∧
        scan = .used (used_files ++ manifests.flatMap (Manifest.blobs blob_dir)) false := by
  induction manifests generalizing used_files with
  | nil => simp [gcManifests, eq_comm]
  | cons m manifests ih =>
    rw [List.map_cons, gcManifests, Outcome.bind_eq_done, List.forall_mem_cons, List.flatMap_cons,
      ← List.append_assoc]
    constructor
    · rintro ⟨read, hread, h⟩
      obtain ⟨hfits, rfl⟩ := (m.manifestBlobs_text blob_dir).mp hread
      obtain ⟨hall, hscan⟩ := ih.mp h
      exact ⟨⟨hfits, hall⟩, hscan⟩
    · rintro ⟨⟨hfits, hall⟩, hscan⟩
      exact ⟨_, (m.manifestBlobs_text blob_dir).mpr ⟨hfits, rfl⟩, ih.mpr ⟨hall, hscan⟩⟩

/-! ## The garbage -/

section Garbage

variable (stale : Bytes → Int) (blob_dir : Bytes) (node : Node) (manifests : List Manifest)

/-- What `dedupe gc` does with well-formed manifests, when it returns. -/
theorem gc_manifests {ret : Int} {removed : List Bytes} :
    gc stale blob_dir (some node) (manifests.map fun m => some m.text) = .done (ret, removed) ↔
      ((∀ m ∈ manifests, m.Fits blob_dir) ∧
        ∀ x ∈ below blob_dir node, x.1.length < PATH_MAX) ∧ ret = 0 ∧
        removed = (sorted (filesOf (below blob_dir node))).filter fun path =>
          decide (path ∉ manifests.flatMap (Manifest.blobs blob_dir)) := by
  simp only [gc]
  rw [Outcome.bind_eq_done]
  constructor
  · rintro ⟨scan, hscan, h⟩
    obtain ⟨hfits, rfl⟩ := gcManifests_texts.mp hscan
    obtain ⟨files, hlist, h⟩ := Outcome.bind_eq_done.mp h
    obtain ⟨hshort, rfl⟩ := recursive_list_dir_eq_done.mp hlist
    obtain ⟨hret, hremoved⟩ := Prod.mk.inj (Outcome.done.inj h)
    rw [unused_eq, List.nil_append] at hremoved
    exact ⟨⟨hfits, hshort⟩, by simpa using hret.symm, hremoved.symm⟩
  · rintro ⟨⟨hfits, hshort⟩, rfl, rfl⟩
    refine ⟨_, gcManifests_texts.mpr ⟨hfits, rfl⟩, ?_⟩
    refine Outcome.bind_eq_done.mpr ⟨_, recursive_list_dir_eq_done.mpr ⟨hshort, rfl⟩, ?_⟩
    rw [unused_eq, List.nil_append]
    rfl

/-- A run that removes the files below the blob directory that no manifest
references, and no others. -/
def Collects : Prop :=
  ∃ removed, gc stale blob_dir (some node) (manifests.map fun m => some m.text) =
    .done (0, removed) ∧ ∀ path, path ∈ removed ↔
      path ∈ filesOf (below blob_dir node) ∧ ∀ m ∈ manifests, path ∉ m.blobs blob_dir

/-- Of well-formed manifests `dedupe gc` removes the garbage if and only if they are
not empty, they fit into its buffers, and so do the paths below the blob directory. -/
theorem gc_removes_iff : Collects stale blob_dir node manifests ↔
    (∀ m ∈ manifests, m.Fits blob_dir) ∧ ∀ x ∈ below blob_dir node, x.1.length < PATH_MAX := by
  constructor
  · rintro ⟨removed, hgc, -⟩
    exact ((gc_manifests stale blob_dir node manifests).mp hgc).1
  · intro hfit
    refine ⟨_, (gc_manifests stale blob_dir node manifests).mpr ⟨hfit, rfl, rfl⟩, fun path => ?_⟩
    simp

end Garbage

/-- The manifest of a directory with one link, whose target has 4090 bytes. -/
def longLine : Manifest where
  version := .two
  records := [.link rootStat (ascii "./a") (List.replicate 4090 120)]
  valid := by
    have htarget : ∀ c : UInt8, c ≠ 120 → c ∉ List.replicate 4090 120 := fun c hc hmem =>
      hc (List.eq_of_mem_replicate hmem)
    exact List.forall_mem_singleton.mpr ⟨by decide, htarget _ (by decide), htarget _ (by decide),
      htarget _ (by decide)⟩

/-- The second piece of the line is taken for a line, and the unused blob stays. -/
theorem gc_long_line :
    ¬ Collects (fun _ => 0) (ascii "/b") oneBlob [longLine] := by
  rintro ⟨removed, hgc, -⟩
  obtain ⟨⟨hfits, -⟩, -⟩ := (gc_manifests _ _ _ _).mp hgc
  have hline := (hfits longLine (List.mem_singleton_self _)).line_lt _ (List.mem_singleton_self _)
  exact absurd hline (by decide +kernel)

end BootableRecovery.Dedupe
