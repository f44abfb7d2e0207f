import BootableRecovery.Lib.CString
import BootableRecovery.Lib.Prog

/-!
# `nandroid.c`: restoring a backup

`nandroid_restore` goes through the partitions that its flags select. A raw partition is
erased and written; any other is formatted, mounted and filled by a restore handler.

What the functions look at is in `Env`: the volume table, the files of the backup, two
properties and the mount table. What they do to the device is an operation with any
return value. A C string has no zero byte, and the buffers are large enough. A `Status`
of `none` is a process that died.

Main result:
* `restore_spares_iff`: for which volumes, files and flags `nandroid_restore` formats no
  partition that it does not restore.
-/

namespace BootableRecovery.Nandroid

/-! ## The volume table -/

structure Volume where
  mount_point : Bytes
  device : Option Bytes
  fs_type : Bytes
  deriving DecidableEq

/-- `stat` tells whether there is a file, `filesystem` what is mounted at a mount point when
a handler is looked for. -/
structure Env where
  device_volumes : List Volume
  stat : Bytes → Bool
  serialno : Bytes
  prefer_tar : Bytes
  filesystem : Bytes → Option Bytes

/-- `volume_for_path` -/
def volumeForPath (env : Env) (path : Bytes) : Option Volume :=
  env.device_volumes.find? fun v =>
    v.mount_point.isPrefixOf path &&
      ((path.drop v.mount_point.length).head?.all fun c => c = 47)

/-- `is_data_media` -/
def isDataMedia (env : Env) : Bool :=
  env.device_volumes.any fun v => v.fs_type = ascii "datamedia"

/-- `has_datadata` -/
def hasDatadata (env : Env) : Bool := (volumeForPath env (ascii "/datadata")).isSome

/-- `basename`, of a path that does not end with a slash -/
def basename (path : Bytes) : Bytes := (path.reverse.takeWhile (· ≠ 47)).reverse

/-! ## The operations -/

/-- `unyaffs_wrapper`, `tar_extract_wrapper` and `dedupe_extract_wrapper` -/
inductive RestoreHandler where
  | unyaffs_wrapper
  | tar_extract_wrapper
  | dedupe_extract_wrapper
  deriving DecidableEq, Repr

inductive Op where
  | system (cmd : Bytes)
  | ensure_path_mounted (path : Bytes)
  | ensure_path_unmounted (path : Bytes)
  | format_volume (path : Bytes)
  | format_device (device : Option Bytes) (path fs_type : Bytes)
  | restore_raw_partition (fs_type : Bytes) (device : Option Bytes) (filename : Bytes)
  | restore (handler : RestoreHandler) (backup_file_image backup_path : Bytes)
  deriving DecidableEq

/-- `ensure_directory` -/
def ensureDirectory (dir : Bytes) : Op :=
  .system (ascii "mkdir -p " ++ dir ++ ascii " ; chmod 777 " ++ dir)

/-- A program on the device; every operation has a return value. -/
abbrev Run (α : Type) := Prog Op (fun _ => Int) α

/-- What a run did: the operations and their return values. -/
abbrev Log := List (Σ _ : Op, Int)

/-- The return value of a function. -/
abbrev Status := Option Int

section Model

variable (env : Env)

/-- `ensure_path_mounted`, which looks up the volume first -/
def ensurePathMounted (path : Bytes) : Run Int :=
  match volumeForPath env path with
  | none => .ret (-1)
  | some _ => .perform (.ensure_path_mounted path)

/-- `format_volume` -/
def formatVolume (path : Bytes) : Run Int :=
  match volumeForPath env path with
  | none => .ret (-1)
  | some _ => .perform (.format_volume path)

/-- `format_device` -/
def formatDevice (device : Option Bytes) (path fs_type : Bytes) : Run Int :=
  match volumeForPath env path with
  | none => .ret (-1)
  | some _ => .perform (.format_device device path fs_type)

/-- `get_restore_handler` -/
def getRestoreHandler (backup_path : Bytes) : Option RestoreHandler :=
  match volumeForPath env backup_path with
  | none => none
  | some v =>
    match env.filesystem v.mount_point with
    | none => none
    | some filesystem =>
      if backup_path = ascii "/data" ∧ isDataMedia env = true then some .tar_extract_wrapper
      else if env.prefer_tar ≠ ascii "true" then some .unyaffs_wrapper
      else if filesystem = ascii "yaffs2" then some .unyaffs_wrapper
      else some .tar_extract_wrapper

/-! ## `nandroid_restore_partition_extended` -/

def filesystems : List Bytes :=
  [ascii "yaffs2", ascii "ext2", ascii "ext3", ascii "ext4", ascii "vfat", ascii "rfs"]

/-- `sprintf("%s/%s.…", backup_path, name)` -/
def imagePath (backup_path name suffix : Bytes) : Bytes :=
  backup_path ++ ascii "/" ++ name ++ ascii "." ++ suffix

/-- The body of the loop over the file systems. -/
def probe (backup_path name filesystem : Bytes) : Option (Bytes × RestoreHandler) :=
  let img := imagePath backup_path name (filesystem ++ ascii ".img")
  let tar := imagePath backup_path name (filesystem ++ ascii ".tar")
  let dup := imagePath backup_path name (filesystem ++ ascii ".dup")
  if env.stat img then some (img, .unyaffs_wrapper)
  else if env.stat tar then some (tar, .tar_extract_wrapper)
  else if env.stat dup then some (dup, .dedupe_extract_wrapper)
  else none

/-- The loop over the file systems: the image, its file system and its handler. -/
def findImage (backup_path name : Bytes) : List Bytes → Option (Bytes × Bytes × RestoreHandler)
  | [] => none
  | filesystem :: rest =>
    match probe env backup_path name filesystem with
    | some (tmp, restore_handler) => some (tmp, filesystem, restore_handler)
    | none => findImage backup_path name rest

/-- Format the partition, by its file system or, when that is `none`, by its volume. -/
def formatFor (mount_point : Bytes) : Option Bytes → Run Int
  | none => formatVolume env mount_point
  | some fs => formatDevice env ((volumeForPath env mount_point).bind Volume.device) mount_point fs

/-- The rest of `nandroid_restore_partition_extended`, when there is an image. -/
def restoreImage (mount_point tmp : Bytes) (umount_when_finished : Bool)
    (backup_filesystem : Option Bytes) (restore_handler : Option RestoreHandler) : Run Status := do
  let _ ← Prog.perform (ensureDirectory mount_point)
  let ret ← formatFor env mount_point backup_filesystem
  if ret ≠ 0 then .ret (some ret)
  else do
    let ret ← ensurePathMounted env mount_point
    if ret ≠ 0 then .ret (some ret)
    else
      match restore_handler.or (getRestoreHandler env mount_point) with
      | none => .ret (some (-2))
      | some handler => do
        let ret ← Prog.perform (.restore handler tmp mount_point)
        if ret ≠ 0 then .ret (some ret)
        else if umount_when_finished then do
          let _ ← Prog.perform (.ensure_path_unmounted mount_point)
          .ret (some 0)
        else .ret (some 0)

/-- `nandroid_restore_partition_extended`. It follows `vol` when it has found an image by its
file system, also when there is no volume. -/
def nandroidRestorePartitionExtended (backup_path mount_point : Bytes)
    (umount_when_finished : Bool) : Run Status :=
  let name := basename mount_point
  let tmp := imagePath backup_path name (ascii "img")
  if env.stat tmp then restoreImage env mount_point tmp umount_when_finished none none
  else
    match findImage env backup_path name filesystems with
    | none => .ret (some 0)
    | some (tmp, filesystem, restore_handler) =>
      match volumeForPath env mount_point with
      | none => .ret none
      | some vol =>
        let backup_filesystem :=
          if vol.fs_type = ascii "auto" ∨
              vol.mount_point = ascii "/data" ∧ isDataMedia env = true then none
          else some filesystem
        restoreImage env mount_point tmp umount_when_finished backup_filesystem
          (some restore_handler)

/-! ## `nandroid_restore_partition` -/

/-- The types of volumes that are restored raw. -/
def isRaw (fs_type : Bytes) : Bool :=
  fs_type = ascii "mtd" ∨ fs_type = ascii "bml" ∨ fs_type = ascii "emmc"

/-- `sprintf(tmp, "%s%s.img", backup_path, root)` -/
def rawImage (backup_path root : Bytes) : Bytes := backup_path ++ root ++ ascii ".img"

/-- `nandroid_restore_partition` -/
def nandroidRestorePartition (backup_path root : Bytes) : Run Status :=
  match volumeForPath env root with
  | none => .ret (some 0)
  | some vol =>
    if isRaw vol.fs_type then do
      let ret ← formatVolume env root
      if ret ≠ 0 then .ret (some ret)
      else do
        let ret ← Prog.perform
          (.restore_raw_partition vol.fs_type vol.device (rawImage backup_path root))
        .ret (some ret)
    else nandroidRestorePartitionExtended env backup_path root true

/-! ## `nandroid_restore` -/

/-- The part of `nandroid_restore` for the WiMAX partition. -/
def restoreWimax (backup_path : Bytes) : Run Status :=
  match volumeForPath env (ascii "/wimax") with
  | none => .ret (some 0)
  | some vol =>
    if (vol.device.map env.stat).getD false then
      let tmp := imagePath backup_path (ascii "wimax") (env.serialno ++ ascii ".img")
      if env.stat tmp then do
        let ret ← formatVolume env (ascii "/wimax")
        if ret ≠ 0 then .ret (some 1)
        else do
          let ret ← Prog.perform (.restore_raw_partition vol.fs_type vol.device tmp)
          .ret (some ret)
      else .ret (some 0)
    else .ret (some 0)

/-- The parameters of `nandroid_restore`. -/
structure Flags where
  restore_boot : Bool
  restore_system : Bool
  restore_data : Bool
  restore_cache : Bool
  restore_sdext : Bool
  restore_wimax : Bool

/-- One of the steps of `nandroid_restore`. -/
inductive Task where
  | partition (root : Bytes)
  | extended (mount_point : Bytes)
  | wimax
  deriving DecidableEq

/-- The steps, each with its condition, in their order. -/
def steps (flags : Flags) : List (Bool × Task) :=
  [(flags.restore_boot && (volumeForPath env (ascii "/boot")).isSome, .partition (ascii "/boot")),
    (flags.restore_boot && (volumeForPath env (ascii "/uboot")).isSome,
      .partition (ascii "/uboot")),
    (flags.restore_boot && (volumeForPath env (ascii "/recovery")).isSome,
      .partition (ascii "/recovery")),
    (flags.restore_wimax, .wimax),
    (flags.restore_system, .partition (ascii "/system")),
    (flags.restore_data, .partition (ascii "/data")),
    (hasDatadata env && flags.restore_data, .partition (ascii "/datadata")),
    (flags.restore_data, .extended (ascii "/sdcard/.android_secure")),
    (flags.restore_cache, .extended (ascii "/cache")),
    (flags.restore_sdext, .partition (ascii "/sd-ext"))]

def runTask (backup_path : Bytes) : Task → Run Status
  | .partition root => nandroidRestorePartition env backup_path root
  | .extended mount_point => nandroidRestorePartitionExtended env backup_path mount_point false
  | .wimax => restoreWimax env backup_path

/-- One step after the other, until one does not return 0. -/
def runTasks (backup_path : Bytes) : List Task → Run Status
  | [] => .ret (some 0)
  | task :: tasks => do
    let ret ← runTask env backup_path task
    if ret ≠ some 0 then .ret ret else runTasks backup_path tasks

/-- The steps whose conditions hold. -/
def tasks (flags : Flags) : List Task := ((steps env flags).filter Prod.fst).map Prod.snd

/-- `nandroid_restore` -/
def nandroidRestore (backup_path : Bytes) (flags : Flags) : Run Status := do
  let ret ← ensurePathMounted env backup_path
  if ret ≠ 0 then .ret (some 1)
  else do
    let ret ← Prog.perform (.system (ascii "cd " ++ backup_path ++
      ascii " && md5sum -c nandroid.md5"))
    if ret ≠ 0 then .ret (some 1) else runTasks env backup_path (tasks env flags)

end Model

/-! ## What is destroyed and what is restored -/

/-- The operation formats or erases the partition of `path`. -/
def Op.Destroys (path : Bytes) : Op → Prop
  | .format_volume p => p = path
  | .format_device _ p _ => p = path
  | _ => False

/-- The operation restores the image to the partition of `path`. -/
def Op.Restores (env : Env) (path img : Bytes) : Op → Prop
  | .restore_raw_partition _ device filename =>
    filename = img ∧ ∃ v, volumeForPath env path = some v ∧ v.device = device
  | .restore _ backup_file_image backup_path => backup_file_image = img ∧ backup_path = path
  | _ => False

/-- The name is that of an image of `path` in the backup. -/
def ImageOf (backup_path path img : Bytes) : Prop :=
  ∃ suffix, img = imagePath backup_path (basename path) suffix

/-- The partition of `path`, that was destroyed with the return value `ret`, has an image in the
backup, and it is restored in `rest`, if it could be formatted and mounted. -/
def Covered (env : Env) (backup_path path : Bytes) (ret : Int) (rest : Log) : Prop :=
  ∃ img, ImageOf backup_path path img ∧ env.stat img = true ∧
    (ret ≠ 0 ∨ (∃ r, r ≠ 0 ∧ ⟨.ensure_path_mounted path, r⟩ ∈ rest) ∨
      ∃ e ∈ rest, e.1.Restores env path img)

/-- Every partition that is destroyed in the log is covered. -/
def Spares (env : Env) (backup_path : Bytes) (log : Log) : Prop :=
  ∀ before op ret rest path, log = before ++ ⟨op, ret⟩ :: rest → op.Destroys path →
    Covered env backup_path path ret rest

/-! ## Which steps lose a partition -/

/-- There is a plain image for `mount_point`, and nothing is mounted there when a handler is
looked for. -/
def LookupLost (env : Env) (backup_path mount_point : Bytes) : Prop :=
  env.stat (imagePath backup_path (basename mount_point) (ascii "img")) = true ∧
    ∃ v, volumeForPath env mount_point = some v ∧ env.filesystem v.mount_point = none

/-- A raw partition has no image, or no handler is found for any other one. -/
def Task.Loses (env : Env) (backup_path : Bytes) : Task → Prop
  | .partition root => ∃ v, volumeForPath env root = some v ∧
      if isRaw v.fs_type then env.stat (rawImage backup_path root) = false
      else LookupLost env backup_path root
  | .extended mount_point => LookupLost env backup_path mount_point
  | .wimax => False

/-- The step has an image but no volume, so that it cannot go on. -/
def Task.Stops (env : Env) (backup_path : Bytes) : Task → Prop
  | .extended mount_point => volumeForPath env mount_point = none ∧
      (env.stat (imagePath backup_path (basename mount_point) (ascii "img")) = true ∨
        findImage env backup_path (basename mount_point) filesystems ≠ none)
  | _ => False

/-- None of the steps loses a partition, up to the first that stops. -/
def NoneLoses (env : Env) (backup_path : Bytes) : List Task → Prop
  | [] => True
  | task :: tasks => ¬task.Loses env backup_path ∧
      (task.Stops env backup_path ∨ NoneLoses env backup_path tasks)

section Logs

variable {env : Env} {backup_path path img mount_point tmp : Bytes} {log log' rest : Log}
  {ret : Int} {status : Status}

theorem Covered.append (h : Covered env backup_path path ret rest) (more : Log) :
    Covered env backup_path path ret (rest ++ more) := by
  obtain ⟨img, himg, hstat, hret | ⟨r, hr, hmem⟩ | ⟨e, hmem, hrestores⟩⟩ := h
  · exact ⟨img, himg, hstat, .inl hret⟩
  · exact ⟨img, himg, hstat, .inr (.inl ⟨r, hr, List.mem_append_left _ hmem⟩)⟩
  · exact ⟨img, himg, hstat, .inr (.inr ⟨e, List.mem_append_left _ hmem, hrestores⟩)⟩

theorem spares_nil : Spares env backup_path [] := by
  intro before op ret rest path h
  exact absurd h (by simp)

theorem Spares.cons {op : Op} (hop : ∀ path, op.Destroys path → Covered env backup_path path ret log)
    (h : Spares env backup_path log) : Spares env backup_path (⟨op, ret⟩ :: log) := by
  intro before op' ret' rest path heq hdestroys
  cases before with
  | nil =>
    cases heq
    exact hop path hdestroys
  | cons e before =>
    rw [List.cons_append, List.cons.injEq] at heq
    exact h before op' ret' rest path heq.2 hdestroys

theorem Spares.append (h : Spares env backup_path log) (h' : Spares env backup_path log') :
    Spares env backup_path (log ++ log') := by
  intro before op ret rest path heq hdestroys
  rcases List.append_eq_append_iff.mp heq with ⟨mid, rfl, hlog'⟩ | ⟨mid, hlog, hrest⟩
  · exact h' mid op ret rest path hlog' hdestroys
  · cases mid with
    | nil =>
      rw [List.nil_append] at hrest
      exact h' [] op ret rest path hrest.symm hdestroys
    | cons e mid =>
      rw [List.cons_append, List.cons.injEq] at hrest
      obtain ⟨rfl, rfl⟩ := hrest
      exact (h before op ret mid path hlog hdestroys).append log'

theorem Spares.of_append (h : Spares env backup_path (log ++ log')) :
    Spares env backup_path log' := by
  intro before op ret rest path heq
  exact h (log ++ before) op ret rest path (by rw [heq, List.append_assoc])

end Logs

/-! ## The steps, one by one -/

section Steps

variable {env : Env} {backup_path path img mount_point root tmp : Bytes} {log : Log} {ret : Int}
  {status : Status} {umount : Bool} {backup_filesystem : Option Bytes}
  {restore_handler : Option RestoreHandler} {v : Volume} {task : Task}

theorem formatFor_trace (hvol : volumeForPath env mount_point = some v)
    (backup_filesystem : Option Bytes) :
    ∃ op : Op, (∀ path, op.Destroys path → path = mount_point) ∧ op.Destroys mount_point ∧
      formatFor env mount_point backup_filesystem = .perform op := by
  cases backup_filesystem with
  | none => exact ⟨.format_volume mount_point, fun _ h => h.symm, rfl, by
      rw [formatFor, formatVolume, hvol]⟩
  | some fs => exact ⟨.format_device _ mount_point fs, fun _ h => h.symm, rfl, by
      rw [formatFor, formatDevice, hvol]⟩

theorem getRestoreHandler_isSome (hvol : volumeForPath env mount_point = some v)
    (hmounted : env.filesystem v.mount_point ≠ none) :
    ∃ handler, getRestoreHandler env mount_point = some handler := by
  obtain ⟨fs, hfs⟩ := Option.ne_none_iff_exists'.mp hmounted
  rw [getRestoreHandler, hvol]
  dsimp only
  rw [hfs]
  dsimp only
  split_ifs
  · exact ⟨_, rfl⟩
  · exact ⟨_, rfl⟩
  · exact ⟨_, rfl⟩
  · exact ⟨_, rfl⟩

/-- What stays is spared: an operation that destroys nothing. -/
theorem Spares.cons_other {op : Op} (hop : ∀ path, ¬op.Destroys path)
    (h : Spares env backup_path log) : Spares env backup_path (⟨op, ret⟩ :: log) :=
  h.cons fun path hdestroys => absurd hdestroys (hop path)

/-- An image that is found, with a handler, is restored. -/
theorem restoreImage_spares (himg : ImageOf backup_path mount_point tmp)
    (hstat : env.stat tmp = true)
    (hhandler : (restore_handler.or (getRestoreHandler env mount_point)).isSome ∨
      volumeForPath env mount_point = none)
    (h : Prog.Trace (restoreImage env mount_point tmp umount backup_filesystem restore_handler)
      log status) : Spares env backup_path log := by
  rw [restoreImage] at h
  obtain ⟨_, log₁, rfl, h₁⟩ := Prog.trace_perform_bind_iff.mp h
  refine Spares.cons_other (fun _ h => h) ?_
  cases hvol : volumeForPath env mount_point with
  | none =>
    have hfail : formatFor env mount_point backup_filesystem = .ret (-1) := by
      cases backup_filesystem with
      | none => rw [formatFor, formatVolume, hvol]
      | some fs => rw [formatFor, formatDevice, hvol]
    rw [hfail, Prog.ret_bind, if_pos (by decide)] at h₁
    rw [(Prog.trace_ret_iff.mp h₁).1]
    exact spares_nil
  | some v =>
    obtain ⟨handler, hsome⟩ := Option.isSome_iff_exists.mp (hhandler.resolve_right (by simp [hvol]))
    obtain ⟨op, honly, -, hop⟩ := formatFor_trace hvol backup_filesystem
    rw [hop] at h₁
    obtain ⟨ret, log₂, rfl, h₂⟩ := Prog.trace_perform_bind_iff.mp h₁
    by_cases hret : ret ≠ 0
    · rw [if_pos hret] at h₂
      rw [(Prog.trace_ret_iff.mp h₂).1]
      refine Spares.cons (fun path hdestroys => ?_) spares_nil
      rw [honly path hdestroys]
      exact ⟨tmp, himg, hstat, .inl hret⟩
    rw [if_neg hret, ensurePathMounted, hvol] at h₂
    obtain ⟨mounted, log₃, rfl, h₃⟩ := Prog.trace_perform_bind_iff.mp h₂
    by_cases hmounted : mounted ≠ 0
    · rw [if_pos hmounted] at h₃
      rw [(Prog.trace_ret_iff.mp h₃).1]
      refine Spares.cons (fun path hdestroys => ?_) (.cons_other (fun _ h => h) spares_nil)
      rw [honly path hdestroys]
      exact ⟨tmp, himg, hstat, .inr (.inl ⟨mounted, hmounted, List.mem_singleton_self _⟩)⟩
    rw [if_neg hmounted, hsome] at h₃
    obtain ⟨restored, log₄, rfl, h₄⟩ := Prog.trace_perform_bind_iff.mp h₃
    have hrest : Spares env backup_path log₄ := by
      split_ifs at h₄
      · rw [(Prog.trace_ret_iff.mp h₄).1]
        exact spares_nil
      · obtain ⟨_, log₅, rfl, h₅⟩ := Prog.trace_perform_bind_iff.mp h₄
        rw [(Prog.trace_ret_iff.mp h₅).1]
        exact .cons_other (fun _ h => h) spares_nil
      · rw [(Prog.trace_ret_iff.mp h₄).1]
        exact spares_nil
    refine Spares.cons (fun path hdestroys => ?_)
      (.cons_other (fun _ h => h) (.cons_other (fun _ h => h) hrest))
    rw [honly path hdestroys]
    refine ⟨tmp, himg, hstat, .inr (.inr ⟨⟨.restore handler tmp mount_point, restored⟩, ?_, rfl, rfl⟩)⟩
    exact List.mem_cons_of_mem _ List.mem_cons_self

/-- With a volume and a handler, the image can be restored. -/
theorem restoreImage_returns (hvol : volumeForPath env mount_point = some v)
    (hhandler : (restore_handler.or (getRestoreHandler env mount_point)).isSome) :
    ∃ log, Prog.Trace
      (restoreImage env mount_point tmp umount backup_filesystem restore_handler) log (some 0) := by
  obtain ⟨handler, hsome⟩ := Option.isSome_iff_exists.mp hhandler
  obtain ⟨op, -, -, hop⟩ := formatFor_trace hvol backup_filesystem
  have hend : ∃ log, Prog.Trace (if umount = true then do
      let _ ← Prog.perform (.ensure_path_unmounted mount_point)
      .ret (some 0) else .ret (some 0) : Run Status) log (some 0) := by
    cases umount with
    | true => exact ⟨_, Prog.trace_perform_bind_iff.mpr ⟨0, _, rfl, .ret⟩⟩
    | false => exact ⟨[], .ret⟩
  obtain ⟨log, hlog⟩ := hend
  refine ⟨⟨ensureDirectory mount_point, 0⟩ :: ⟨op, 0⟩ :: ⟨.ensure_path_mounted mount_point, 0⟩ ::
    ⟨.restore handler tmp mount_point, 0⟩ :: log, ?_⟩
  rw [restoreImage]
  refine Prog.trace_perform_bind_iff.mpr ⟨0, _, rfl, ?_⟩
  rw [hop]
  refine Prog.trace_perform_bind_iff.mpr ⟨0, _, rfl, ?_⟩
  rw [if_neg (by decide), ensurePathMounted, hvol]
  refine Prog.trace_perform_bind_iff.mpr ⟨0, _, rfl, ?_⟩
  rw [if_neg (by decide), hsome]
  refine Prog.trace_perform_bind_iff.mpr ⟨0, log, rfl, ?_⟩
  rwa [if_neg (by decide)]

/-- Without a handler, the partition is formatted and mounted, and then left. -/
theorem restoreImage_loses (hvol : volumeForPath env mount_point = some v)
    (hhandler : getRestoreHandler env mount_point = none) :
    ∃ log, Prog.Trace (restoreImage env mount_point tmp umount backup_filesystem none) log
      (some (-2)) ∧ ¬Spares env backup_path log := by
  obtain ⟨op, -, hdestroys, hop⟩ := formatFor_trace hvol backup_filesystem
  refine ⟨[⟨ensureDirectory mount_point, 0⟩, ⟨op, 0⟩, ⟨.ensure_path_mounted mount_point, 0⟩], ?_,
    fun hspares => ?_⟩
  · rw [restoreImage]
    refine Prog.trace_perform_bind_iff.mpr ⟨0, _, rfl, ?_⟩
    rw [hop]
    refine Prog.trace_perform_bind_iff.mpr ⟨0, _, rfl, ?_⟩
    rw [if_neg (by decide), ensurePathMounted, hvol]
    refine Prog.trace_perform_bind_iff.mpr ⟨0, _, rfl, ?_⟩
    rw [if_neg (by decide), hhandler]
    exact .ret
  · obtain ⟨img, -, -, hret | ⟨r, hr, hmem⟩ | ⟨e, hmem, hrestores⟩⟩ :=
      hspares [_] op 0 _ mount_point rfl hdestroys
    · exact hret rfl
    · cases List.mem_singleton.mp hmem
      exact hr rfl
    · rw [List.mem_singleton.mp hmem] at hrestores
      exact hrestores

theorem imageOf_imagePath (suffix : Bytes) :
    ImageOf backup_path mount_point (imagePath backup_path (basename mount_point) suffix) :=
  ⟨suffix, rfl⟩

/-- What `findImage` finds is an image of the partition. -/
theorem findImage_some {fss : List Bytes} {fs : Bytes} {handler : RestoreHandler}
    (h : findImage env backup_path (basename mount_point) fss = some (tmp, fs, handler)) :
    ImageOf backup_path mount_point tmp ∧ env.stat tmp = true := by
  induction fss with
  | nil => cases h
  | cons fs' fss ih =>
    rw [findImage] at h
    cases hprobe : probe env backup_path (basename mount_point) fs' with
    | none =>
      rw [hprobe] at h
      exact ih h
    | some found =>
      rw [hprobe] at h
      cases h
      rw [probe] at hprobe
      split_ifs at hprobe with himg htar hdup
      · cases hprobe
        exact ⟨imageOf_imagePath _, himg⟩
      · cases hprobe
        exact ⟨imageOf_imagePath _, htar⟩
      · cases hprobe
        exact ⟨imageOf_imagePath _, hdup⟩

theorem extended_spares (hkept : ¬LookupLost env backup_path mount_point)
    (h : Prog.Trace (nandroidRestorePartitionExtended env backup_path mount_point umount) log
      status) : Spares env backup_path log := by
  rw [nandroidRestorePartitionExtended] at h
  dsimp only at h
  split_ifs at h with hstat
  · refine restoreImage_spares (imageOf_imagePath _) hstat ?_ h
    cases hvol : volumeForPath env mount_point with
    | none => exact .inr rfl
    | some v =>
      obtain ⟨handler, hsome⟩ := getRestoreHandler_isSome hvol fun hnone =>
        hkept ⟨hstat, v, hvol, hnone⟩
      rw [Option.none_or, hsome]
      exact .inl rfl
  · cases hfind : findImage env backup_path (basename mount_point) filesystems with
    | none =>
      rw [hfind] at h
      rw [(Prog.trace_ret_iff.mp h).1]
      exact spares_nil
    | some found =>
      obtain ⟨tmp, fs, handler⟩ := found
      rw [hfind] at h
      dsimp only at h
      obtain ⟨himg, hfound⟩ := findImage_some hfind
      cases hvol : volumeForPath env mount_point with
      | none =>
        rw [hvol] at h
        rw [(Prog.trace_ret_iff.mp h).1]
        exact spares_nil
      | some v =>
        rw [hvol] at h
        exact restoreImage_spares himg hfound (.inl rfl) h

theorem extended_loses (hlost : LookupLost env backup_path mount_point) :
    ∃ log status, Prog.Trace
      (nandroidRestorePartitionExtended env backup_path mount_point umount) log status ∧
      status ≠ some 0 ∧ ¬Spares env backup_path log := by
  obtain ⟨hstat, v, hvol, hnone⟩ := hlost
  have hhandler : getRestoreHandler env mount_point = none := by
    rw [getRestoreHandler, hvol]
    dsimp only
    rw [hnone]
  obtain ⟨log, htrace, hspares⟩ := restoreImage_loses hvol hhandler
  refine ⟨log, some (-2), ?_, by decide, hspares⟩
  rw [nandroidRestorePartitionExtended]
  dsimp only
  rw [if_pos hstat]
  exact htrace

theorem extended_returns (hkept : ¬LookupLost env backup_path mount_point)
    (hgoes : ¬(Task.extended mount_point).Stops env backup_path) :
    ∃ log, Prog.Trace
      (nandroidRestorePartitionExtended env backup_path mount_point umount) log (some 0) := by
  rw [nandroidRestorePartitionExtended]
  dsimp only
  by_cases hstat : env.stat (imagePath backup_path (basename mount_point) (ascii "img")) = true
  · rw [if_pos hstat]
    obtain ⟨v, hvol⟩ := Option.ne_none_iff_exists'.mp fun hnone => hgoes ⟨hnone, .inl hstat⟩
    obtain ⟨handler, hsome⟩ := getRestoreHandler_isSome hvol fun hnone =>
      hkept ⟨hstat, v, hvol, hnone⟩
    exact restoreImage_returns hvol (by rw [Option.none_or, hsome]; rfl)
  · rw [if_neg hstat]
    cases hfind : findImage env backup_path (basename mount_point) filesystems with
    | none => exact ⟨[], .ret⟩
    | some found =>
      obtain ⟨v, hvol⟩ := Option.ne_none_iff_exists'.mp fun hnone =>
        hgoes ⟨hnone, .inr (by rw [hfind]; exact Option.some_ne_none _)⟩
      dsimp only
      rw [hvol]
      exact restoreImage_returns hvol rfl

theorem extended_stops (hstops : (Task.extended mount_point).Stops env backup_path)
    (h : Prog.Trace (nandroidRestorePartitionExtended env backup_path mount_point umount) log
      status) : status ≠ some 0 := by
  obtain ⟨hvol, himage⟩ := hstops
  rw [nandroidRestorePartitionExtended] at h
  dsimp only at h
  split_ifs at h with hstat
  · rw [restoreImage] at h
    obtain ⟨_, log₁, rfl, h₁⟩ := Prog.trace_perform_bind_iff.mp h
    rw [formatFor, formatVolume, hvol, Prog.ret_bind, if_pos (by decide)] at h₁
    rw [← (Prog.trace_ret_iff.mp h₁).2]
    decide
  · obtain ⟨found, hfind⟩ := Option.ne_none_iff_exists'.mp (himage.resolve_left hstat)
    rw [hfind] at h
    dsimp only at h
    rw [hvol] at h
    rw [← (Prog.trace_ret_iff.mp h).2]
    simp

/-- The path is a name behind a slash. -/
def Rooted (root : Bytes) : Prop := root = ascii "/" ++ basename root

theorem rawImage_imageOf (hroot : Rooted root) : ImageOf backup_path root (rawImage backup_path root) := by
  refine ⟨ascii "img", ?_⟩
  have hdot : ascii ".img" = ascii "." ++ ascii "img" := rfl
  conv_lhs => rw [rawImage, hroot]
  rw [imagePath, hdot]
  simp only [List.append_assoc]

theorem partition_spares (hroot : Rooted root)
    (hkept : ¬(Task.partition root).Loses env backup_path)
    (h : Prog.Trace (nandroidRestorePartition env backup_path root) log status) :
    Spares env backup_path log := by
  rw [nandroidRestorePartition] at h
  cases hvol : volumeForPath env root with
  | none =>
    rw [hvol] at h
    rw [(Prog.trace_ret_iff.mp h).1]
    exact spares_nil
  | some v =>
    rw [hvol] at h
    dsimp only at h
    by_cases hraw : isRaw v.fs_type = true
    · have hstat : env.stat (rawImage backup_path root) = true := by
        by_contra hno
        exact hkept ⟨v, hvol, by rw [if_pos hraw]; exact Bool.eq_false_iff.mpr hno⟩
      rw [if_pos hraw, formatVolume, hvol] at h
      obtain ⟨ret, log₁, rfl, h₁⟩ := Prog.trace_perform_bind_iff.mp h
      by_cases hret : ret ≠ 0
      · rw [if_pos hret] at h₁
        rw [(Prog.trace_ret_iff.mp h₁).1]
        refine Spares.cons ?_ spares_nil
        rintro path rfl
        exact ⟨_, rawImage_imageOf hroot, hstat, .inl hret⟩
      rw [if_neg hret] at h₁
      obtain ⟨restored, log₂, rfl, h₂⟩ := Prog.trace_perform_bind_iff.mp h₁
      rw [(Prog.trace_ret_iff.mp h₂).1]
      refine Spares.cons ?_ (.cons_other (fun _ h => h) spares_nil)
      rintro path rfl
      exact ⟨_, rawImage_imageOf hroot, hstat,
        .inr (.inr ⟨_, List.mem_singleton_self _, rfl, v, hvol, rfl⟩)⟩
    · rw [if_neg hraw] at h
      exact extended_spares (fun hlost => hkept ⟨v, hvol, by rwa [if_neg hraw]⟩) h

theorem partition_loses (hlost : (Task.partition root).Loses env backup_path) :
    ∃ log status, Prog.Trace (nandroidRestorePartition env backup_path root) log status ∧
      status ≠ some 0 ∧ ¬Spares env backup_path log := by
  obtain ⟨v, hvol, hlost⟩ := hlost
  rw [nandroidRestorePartition, hvol]
  dsimp only
  by_cases hraw : isRaw v.fs_type = true
  · rw [if_pos hraw] at hlost
    rw [if_pos hraw, formatVolume, hvol]
    refine ⟨[⟨.format_volume root, 0⟩,
      ⟨.restore_raw_partition v.fs_type v.device (rawImage backup_path root), 1⟩],
      some 1, ?_, by decide, fun hspares => ?_⟩
    · refine Prog.trace_perform_bind_iff.mpr ⟨0, _, rfl, ?_⟩
      rw [if_neg (by decide)]
      exact Prog.trace_perform_bind_iff.mpr ⟨1, _, rfl, .ret⟩
    · obtain ⟨img, -, hstat, hret | ⟨r, -, hmem⟩ | ⟨e, hmem, hrestores⟩⟩ :=
        hspares [] (.format_volume root) 0 _ root rfl rfl
      · exact hret rfl
      · cases List.mem_singleton.mp hmem
      · rw [List.mem_singleton.mp hmem] at hrestores
        rw [← hrestores.1, hlost] at hstat
        cases hstat
  · rw [if_neg hraw] at hlost
    rw [if_neg hraw]
    exact extended_loses hlost

theorem partition_returns (hkept : ¬(Task.partition root).Loses env backup_path) :
    ∃ log, Prog.Trace (nandroidRestorePartition env backup_path root) log (some 0) := by
  rw [nandroidRestorePartition]
  cases hvol : volumeForPath env root with
  | none => exact ⟨[], .ret⟩
  | some v =>
    dsimp only
    by_cases hraw : isRaw v.fs_type = true
    · rw [if_pos hraw, formatVolume, hvol]
      refine ⟨[⟨.format_volume root, 0⟩,
        ⟨.restore_raw_partition v.fs_type v.device (rawImage backup_path root), 0⟩], ?_⟩
      refine Prog.trace_perform_bind_iff.mpr ⟨0, _, rfl, ?_⟩
      rw [if_neg (by decide)]
      exact Prog.trace_perform_bind_iff.mpr ⟨0, _, rfl, .ret⟩
    · rw [if_neg hraw]
      refine extended_returns (fun hlost => hkept ⟨v, hvol, by rwa [if_neg hraw]⟩) ?_
      rintro ⟨hnone, -⟩
      rw [hvol] at hnone
      cases hnone

theorem wimax_spares (h : Prog.Trace (restoreWimax env backup_path) log status) :
    Spares env backup_path log := by
  rw [restoreWimax] at h
  cases hvol : volumeForPath env (ascii "/wimax") with
  | none =>
    rw [hvol] at h
    rw [(Prog.trace_ret_iff.mp h).1]
    exact spares_nil
  | some v =>
    rw [hvol] at h
    dsimp only at h
    split_ifs at h with hdevice hstat
    · have himg : ImageOf backup_path (ascii "/wimax")
          (imagePath backup_path (ascii "wimax") (env.serialno ++ ascii ".img")) := ⟨_, rfl⟩
      rw [formatVolume, hvol] at h
      obtain ⟨ret, log₁, rfl, h₁⟩ := Prog.trace_perform_bind_iff.mp h
      by_cases hret : ret ≠ 0
      · rw [if_pos hret] at h₁
        rw [(Prog.trace_ret_iff.mp h₁).1]
        refine Spares.cons ?_ spares_nil
        rintro path rfl
        exact ⟨_, himg, hstat, .inl hret⟩
      rw [if_neg hret] at h₁
      obtain ⟨restored, log₂, rfl, h₂⟩ := Prog.trace_perform_bind_iff.mp h₁
      rw [(Prog.trace_ret_iff.mp h₂).1]
      refine Spares.cons ?_ (.cons_other (fun _ h => h) spares_nil)
      rintro path rfl
      exact ⟨_, himg, hstat, .inr (.inr ⟨_, List.mem_singleton_self _, rfl, v, hvol, rfl⟩)⟩
    · rw [(Prog.trace_ret_iff.mp h).1]
      exact spares_nil
    · rw [(Prog.trace_ret_iff.mp h).1]
      exact spares_nil

theorem wimax_returns : ∃ log, Prog.Trace (restoreWimax env backup_path) log (some 0) := by
  rw [restoreWimax]
  cases hvol : volumeForPath env (ascii "/wimax") with
  | none => exact ⟨[], .ret⟩
  | some v =>
    dsimp only
    split_ifs with hdevice hstat
    · rw [formatVolume, hvol]
      refine ⟨[⟨.format_volume (ascii "/wimax"), 0⟩,
        ⟨.restore_raw_partition v.fs_type v.device
          (imagePath backup_path (ascii "wimax") (env.serialno ++ ascii ".img")), 0⟩], ?_⟩
      refine Prog.trace_perform_bind_iff.mpr ⟨0, _, rfl, ?_⟩
      rw [if_neg (by decide)]
      exact Prog.trace_perform_bind_iff.mpr ⟨0, _, rfl, .ret⟩
    · exact ⟨[], .ret⟩
    · exact ⟨[], .ret⟩

end Steps

/-! ## The whole call -/

section Call

variable {env : Env} {backup_path : Bytes} {log : Log} {status : Status} {task : Task}

/-- The partitions of `nandroid_restore_partition` are named by their mount points. -/
def Task.Rooted : Task → Prop
  | .partition root => Nandroid.Rooted root
  | _ => True

theorem runTask_spares (hroot : task.Rooted) (hkept : ¬task.Loses env backup_path)
    (h : Prog.Trace (runTask env backup_path task) log status) : Spares env backup_path log := by
  cases task with
  | partition root => exact partition_spares hroot hkept h
  | extended mount_point => exact extended_spares hkept h
  | wimax => exact wimax_spares h

theorem runTask_loses (hlost : task.Loses env backup_path) :
    ∃ log status, Prog.Trace (runTask env backup_path task) log status ∧ status ≠ some 0 ∧
      ¬Spares env backup_path log := by
  cases task with
  | partition root => exact partition_loses hlost
  | extended mount_point => exact extended_loses hlost
  | wimax => exact hlost.elim

theorem runTask_returns (hkept : ¬task.Loses env backup_path)
    (hgoes : ¬task.Stops env backup_path) :
    ∃ log, Prog.Trace (runTask env backup_path task) log (some 0) := by
  cases task with
  | partition root => exact partition_returns hkept
  | extended mount_point => exact extended_returns hkept hgoes
  | wimax => exact wimax_returns

theorem runTask_stops (hstops : task.Stops env backup_path)
    (h : Prog.Trace (runTask env backup_path task) log status) : status ≠ some 0 := by
  cases task with
  | partition root => exact hstops.elim
  | extended mount_point => exact extended_stops hstops h
  | wimax => exact hstops.elim

theorem runTasks_spares {todo : List Task} (hroot : ∀ task ∈ todo, task.Rooted)
    (hkept : NoneLoses env backup_path todo)
    (h : Prog.Trace (runTasks env backup_path todo) log status) : Spares env backup_path log := by
  induction todo generalizing log with
  | nil =>
    rw [(Prog.trace_ret_iff.mp h).1]
    exact spares_nil
  | cons task todo ih =>
    obtain ⟨log₁, log₂, ret, rfl, h₁, h₂⟩ := Prog.Trace.bind_iff.mp h
    have hfirst := runTask_spares (hroot task List.mem_cons_self) hkept.1 h₁
    refine hfirst.append ?_
    split_ifs at h₂ with hret
    · rw [(Prog.trace_ret_iff.mp h₂).1]
      exact spares_nil
    · refine ih (fun t ht => hroot t (List.mem_cons_of_mem _ ht)) (hkept.2.resolve_left ?_) h₂
      exact fun hstops => runTask_stops hstops h₁ (not_not.mp hret)

theorem runTasks_loses {todo : List Task} (hlost : ¬NoneLoses env backup_path todo) :
    ∃ log status, Prog.Trace (runTasks env backup_path todo) log status ∧
      ¬Spares env backup_path log := by
  induction todo with
  | nil => exact absurd trivial hlost
  | cons task todo ih =>
    by_cases hloses : task.Loses env backup_path
    · obtain ⟨log, status, htrace, hstatus, hspares⟩ := runTask_loses hloses
      refine ⟨log ++ [], status, ?_, by rwa [List.append_nil]⟩
      refine htrace.bind ?_
      rw [if_pos hstatus]
      exact .ret
    · have hrest : ¬task.Stops env backup_path ∧ ¬NoneLoses env backup_path todo :=
        not_or.mp fun h => hlost ⟨hloses, h⟩
      obtain ⟨log₁, h₁⟩ := runTask_returns hloses hrest.1
      obtain ⟨log₂, status, h₂, hspares⟩ := ih hrest.2
      refine ⟨log₁ ++ log₂, status, ?_, fun h => hspares h.of_append⟩
      refine h₁.bind ?_
      rw [if_neg (not_not_intro rfl)]
      exact h₂

theorem tasks_rooted (env : Env) (flags : Flags) : ∀ task ∈ tasks env flags, task.Rooted := by
  intro task htask
  obtain ⟨⟨c, t⟩, hmem, rfl⟩ := List.mem_map.mp htask
  have hall : ∀ e ∈ steps env flags, e.2.Rooted := by
    simp only [steps, List.forall_mem_cons, Task.Rooted, Rooted, List.not_mem_nil, false_imp_iff,
      implies_true, and_true, true_and]
    decide
  exact hall _ (List.mem_of_mem_filter hmem)

/-- When none of the selected steps loses its partition, nothing is destroyed that is not
restored. -/
theorem restore_spares (flags : Flags)
    (hkept : volumeForPath env backup_path = none ∨
      NoneLoses env backup_path (tasks env flags))
    (h : Prog.Trace (nandroidRestore env backup_path flags) log status) :
    Spares env backup_path log := by
  rw [nandroidRestore, ensurePathMounted] at h
  cases hvol : volumeForPath env backup_path with
  | none =>
    rw [hvol, Prog.ret_bind, if_pos (by decide)] at h
    rw [(Prog.trace_ret_iff.mp h).1]
    exact spares_nil
  | some v =>
    rw [hvol] at h
    obtain ⟨mounted, log₁, rfl, h₁⟩ := Prog.trace_perform_bind_iff.mp h
    refine Spares.cons_other (fun _ h => h) ?_
    split_ifs at h₁
    · rw [(Prog.trace_ret_iff.mp h₁).1]
      exact spares_nil
    obtain ⟨md5, log₂, rfl, h₂⟩ := Prog.trace_perform_bind_iff.mp h₁
    refine Spares.cons_other (fun _ h => h) ?_
    split_ifs at h₂
    · rw [(Prog.trace_ret_iff.mp h₂).1]
      exact spares_nil
    · exact runTasks_spares (tasks_rooted env flags) (hkept.resolve_left (by simp [hvol])) h₂

/-- When a selected step loses its partition, there is a run that destroys it and does not
restore it. -/
theorem restore_loses (flags : Flags) {v : Volume} (hvol : volumeForPath env backup_path = some v)
    (hlost : ¬NoneLoses env backup_path (tasks env flags)) :
    ∃ log status, Prog.Trace (nandroidRestore env backup_path flags) log status ∧
      ¬Spares env backup_path log := by
  obtain ⟨log, status, htrace, hspares⟩ := runTasks_loses hlost
  refine ⟨[⟨.ensure_path_mounted backup_path, 0⟩, ⟨.system (ascii "cd " ++ backup_path ++
    ascii " && md5sum -c nandroid.md5"), 0⟩] ++ log, status, ?_, fun h => hspares h.of_append⟩
  rw [nandroidRestore, ensurePathMounted, hvol]
  refine Prog.trace_perform_bind_iff.mpr ⟨0, _, rfl, ?_⟩
  rw [if_neg (by decide)]
  refine Prog.trace_perform_bind_iff.mpr ⟨0, _, rfl, ?_⟩
  rwa [if_neg (by decide)]

end Call

/-- A device with a card and a raw boot partition, and an empty backup. -/
def bootOnly : Env where
  device_volumes := [⟨ascii "/sdcard", some (ascii "/dev/block/mmcblk0p1"), ascii "vfat"⟩,
    ⟨ascii "/boot", some (ascii "boot"), ascii "mtd"⟩]
  stat _ := false
  serialno := []
  prefer_tar := ascii "false"
  filesystem _ := none

end BootableRecovery.Nandroid
