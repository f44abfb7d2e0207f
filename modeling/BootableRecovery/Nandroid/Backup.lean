import BootableRecovery.Nandroid.Restore

/-!
# `nandroid.c`: the names of backup images

`nandroid_backup_partition_extended` names an image after the file system that the mount table
reports, and the backup handler adds a suffix. `nandroid_restore_partition_extended` looks for
a fixed list of file systems.

Main result:
* `backup_restorable_iff`: which images the restore finds again, and gives to the inverse of
  the handler that made them.
-/

namespace BootableRecovery.Nandroid

/-! ## Backup -/

/-- `mkyaffs2image_wrapper`, `tar_compress_wrapper` and `dedupe_compress_wrapper` -/
inductive BackupHandler where
  | mkyaffs2image_wrapper
  | tar_compress_wrapper
  | dedupe_compress_wrapper
  deriving DecidableEq, Repr

/-- What the handler adds to the name that it is given. -/
def BackupHandler.suffix : BackupHandler → Bytes
  | .mkyaffs2image_wrapper => ascii ".img"
  | .tar_compress_wrapper => ascii ".tar"
  | .dedupe_compress_wrapper => ascii ".dup"

/-- The restore handler that reads what the backup handler writes. -/
def BackupHandler.inverse : BackupHandler → RestoreHandler
  | .mkyaffs2image_wrapper => .unyaffs_wrapper
  | .tar_compress_wrapper => .tar_extract_wrapper
  | .dedupe_compress_wrapper => .dedupe_extract_wrapper

/-- The mount table (for a mount point that is mounted, its file system, which may be NULL)
and two variables of the program. -/
structure BackupState where
  mounted : Bytes → Option (Option Bytes)
  forced_backup_format : Bytes
  default_backup_handler : Option BackupHandler

inductive BackupOp where
  | ensure_path_mounted (path : Bytes)
  | ensure_path_unmounted (path : Bytes)
  | compute_directory_stats (directory : Bytes)
  | backup (handler : BackupHandler) (backup_path backup_file_image : Bytes)
  deriving DecidableEq

section Model

variable (env : Env) (state : BackupState)

/-- `get_backup_handler`; the process dies where it compares a file system that is NULL. -/
def getBackupHandler (backup_path : Bytes) : Option (Option BackupHandler) :=
  match volumeForPath env backup_path with
  | none => some none
  | some v =>
    match state.mounted v.mount_point with
    | none => some none
    | some filesystem =>
      if backup_path = ascii "/data" ∧ isDataMedia env = true then
        some state.default_backup_handler
      else if state.forced_backup_format.length > 0 then some state.default_backup_handler
      else
        match filesystem with
        | none => none
        | some filesystem =>
          if filesystem = ascii "yaffs2" then some (some .mkyaffs2image_wrapper)
          else some state.default_backup_handler

/-- The file system that the mount table reports for the volume of a path. -/
def reported (mount_point : Bytes) : Option Bytes :=
  ((volumeForPath env mount_point).bind fun v => state.mounted v.mount_point).join

/-- The name that `nandroid_backup_partition_extended` makes for the image. -/
def imageName (backup_path mount_point : Bytes) : Bytes :=
  match reported env state mount_point with
  | none => imagePath backup_path (basename mount_point) (ascii "auto")
  | some filesystem => imagePath backup_path (basename mount_point) filesystem

/-- `nandroid_backup_partition_extended` -/
def nandroidBackupPartitionExtended (backup_path mount_point : Bytes)
    (umount_when_finished : Bool) : Prog BackupOp (fun _ => Int) Status := do
  let mounted ← Prog.perform (.ensure_path_mounted mount_point)
  if mounted ≠ 0 then .ret (some 1)
  else do
    let _ ← Prog.perform (.compute_directory_stats mount_point)
    let tmp := imageName env state backup_path mount_point
    match getBackupHandler env state mount_point with
    | none => .ret none
    | some none => .ret (some (-2))
    | some (some backup_handler) => do
      let ret ← Prog.perform (.backup backup_handler mount_point tmp)
      if umount_when_finished then do
        let _ ← Prog.perform (.ensure_path_unmounted mount_point)
        .ret (some ret)
      else .ret (some ret)

end Model

/-! ## The backup directory -/

/-- The files that a handler makes for an image: `tar` is split into pieces. -/
def BackupHandler.Makes (handler : BackupHandler) (img file : Bytes) : Prop :=
  file = img ∨ handler = .tar_compress_wrapper ∧ ∃ c, file = img ++ ascii "." ++ [c]

/-- Of all the names for images of the partition, the directory has those of this one. -/
structure HoldsOnly (env : Env) (backup_path name : Bytes) (handler : BackupHandler)
    (img : Bytes) : Prop where
  holds : env.stat img = true
  only : ∀ suffix, env.stat (imagePath backup_path name suffix) = true →
    handler.Makes img (imagePath backup_path name suffix)

/-- A restore that nothing goes wrong with gives the image to the restore handler. -/
def Picks (env : Env) (backup_path mount_point : Bytes) (umount : Bool)
    (handler : RestoreHandler) (img : Bytes) : Prop :=
  ∀ log status, Prog.Trace (nandroidRestorePartitionExtended env backup_path mount_point umount)
    log status → (∀ e ∈ log, e.2 = 0) → ∃ ret, ⟨.restore handler img mount_point, ret⟩ ∈ log

section Names

variable {env env' : Env} {state : BackupState} {backup_path mount_point name tmp img fs fs' : Bytes}
  {handler : BackupHandler} {umount umount' : Bool} {v : Volume}

theorem imagePath_inj {s s' : Bytes} :
    imagePath backup_path name s = imagePath backup_path name s' ↔ s = s' :=
  List.append_right_inj _

theorem suffix_length (handler : BackupHandler) : handler.suffix.length = 4 := by
  cases handler <;> rfl

theorem suffix_inj {handler handler' : BackupHandler} (h : handler.suffix = handler'.suffix) :
    handler = handler' := by
  revert h
  cases handler <;> cases handler' <;> decide

/-- A piece of a split image has no name that the restore looks for. -/
theorem not_piece (handler handler' : BackupHandler) (c : UInt8) :
    fs' ++ handler'.suffix ≠ fs ++ handler.suffix ++ ascii "." ++ [c] := by
  intro h
  have hlast : (fs' ++ handler'.suffix).reverse = _ := congrArg List.reverse h
  cases handler' <;>
    simp [BackupHandler.suffix, ascii] at hlast

/-- The only image in the directory is found under its own name. -/
theorem HoldsOnly.stat_iff (h : HoldsOnly env backup_path name handler
    (imagePath backup_path name (fs ++ handler.suffix))) (handler' : BackupHandler) :
    env.stat (imagePath backup_path name (fs' ++ handler'.suffix)) = true ↔
      fs' = fs ∧ handler' = handler := by
  constructor
  · intro hstat
    rcases h.only _ hstat with hsame | ⟨-, c, hpiece⟩
    · obtain ⟨hfs, hsuffix⟩ := List.append_inj' (imagePath_inj.mp hsame)
        (by rw [suffix_length, suffix_length])
      exact ⟨hfs, suffix_inj hsuffix⟩
    · have hname : imagePath backup_path name (fs' ++ handler'.suffix) =
          imagePath backup_path name (fs ++ handler.suffix ++ ascii "." ++ [c]) := by
        rw [hpiece, imagePath, imagePath]
        simp only [List.append_assoc]
      exact absurd (imagePath_inj.mp hname) (not_piece handler handler' c)
  · rintro ⟨rfl, rfl⟩
    exact h.holds

/-- It is not found as a plain image. -/
theorem HoldsOnly.no_plain (h : HoldsOnly env backup_path name handler
    (imagePath backup_path name (fs ++ handler.suffix))) :
    env.stat (imagePath backup_path name (ascii "img")) = false := by
  rw [← Bool.not_eq_true]
  intro hstat
  have hthree : (ascii "img").length = 3 := rfl
  rcases h.only _ hstat with hsame | ⟨-, c, hpiece⟩
  · have hlen := congrArg List.length (imagePath_inj.mp hsame)
    rw [List.length_append, suffix_length] at hlen
    omega
  · have hlen := congrArg List.length hpiece
    simp only [imagePath, List.length_append, suffix_length] at hlen
    omega

theorem HoldsOnly.probe (h : HoldsOnly env backup_path name handler
    (imagePath backup_path name (fs ++ handler.suffix))) :
    Nandroid.probe env backup_path name fs' =
      if fs' = fs then some (imagePath backup_path name (fs ++ handler.suffix), handler.inverse)
      else none := by
  have himg := @HoldsOnly.stat_iff env backup_path name fs fs' handler h .mkyaffs2image_wrapper
  have htar := @HoldsOnly.stat_iff env backup_path name fs fs' handler h .tar_compress_wrapper
  have hdup := @HoldsOnly.stat_iff env backup_path name fs fs' handler h .dedupe_compress_wrapper
  rw [Nandroid.probe]
  dsimp only [BackupHandler.suffix] at himg htar hdup ⊢
  by_cases hfs : fs' = fs
  · subst hfs
    rw [if_pos rfl]
    cases handler with
    | mkyaffs2image_wrapper =>
      rw [if_pos (himg.mpr ⟨rfl, rfl⟩)]
      rfl
    | tar_compress_wrapper =>
      rw [if_neg (mt himg.mp (by simp)), if_pos (htar.mpr ⟨rfl, rfl⟩)]
      rfl
    | dedupe_compress_wrapper =>
      rw [if_neg (mt himg.mp (by simp)), if_neg (mt htar.mp (by simp)),
        if_pos (hdup.mpr ⟨rfl, rfl⟩)]
      rfl
  · rw [if_neg hfs, if_neg (mt himg.mp fun h => hfs h.1), if_neg (mt htar.mp fun h => hfs h.1),
      if_neg (mt hdup.mp fun h => hfs h.1)]

/-- The loop finds the image when it comes to its file system. -/
theorem HoldsOnly.findImage (h : HoldsOnly env backup_path name handler
    (imagePath backup_path name (fs ++ handler.suffix))) (fss : List Bytes) :
    Nandroid.findImage env backup_path name fss =
      if fs ∈ fss then
        some (imagePath backup_path name (fs ++ handler.suffix), fs, handler.inverse)
      else none := by
  induction fss with
  | nil => rfl
  | cons fs' fss ih =>
    rw [Nandroid.findImage, h.probe]
    by_cases hfs : fs' = fs
    · subst hfs
      rw [if_pos rfl, if_pos List.mem_cons_self]
    · rw [if_neg hfs]
      dsimp only
      rw [ih]
      simp only [List.mem_cons, Ne.symm hfs, false_or]

end Names

/-! ## Backup, then restore -/

section Runs

variable {env env' : Env} {state : BackupState} {backup_path mount_point tmp fs : Bytes}
  {handler : BackupHandler} {umount umount' : Bool} {v : Volume} {status : Status} {ret : Int}

/-- With a handler, a run of `restoreImage` that nothing goes wrong with restores. -/
theorem restoreImage_restores {log : Log} {backup_filesystem : Option Bytes}
    {restore_handler : RestoreHandler} (hvol : volumeForPath env mount_point = some v)
    (h : Prog.Trace (restoreImage env mount_point tmp umount backup_filesystem
      (some restore_handler)) log status) (hzero : ∀ e ∈ log, e.2 = 0) :
    ∃ ret, ⟨.restore restore_handler tmp mount_point, ret⟩ ∈ log := by
  obtain ⟨op, -, -, hop⟩ := formatFor_trace hvol backup_filesystem
  rw [restoreImage] at h
  obtain ⟨_, log₁, rfl, h₁⟩ := Prog.trace_perform_bind_iff.mp h
  rw [hop] at h₁
  obtain ⟨formatted, log₂, rfl, h₂⟩ := Prog.trace_perform_bind_iff.mp h₁
  have hformatted : formatted = 0 := hzero ⟨op, formatted⟩ (by simp)
  rw [if_neg (not_not_intro hformatted), ensurePathMounted, hvol] at h₂
  obtain ⟨mounted, log₃, rfl, h₃⟩ := Prog.trace_perform_bind_iff.mp h₂
  have hmounted : mounted = 0 := hzero ⟨.ensure_path_mounted mount_point, mounted⟩ (by simp)
  rw [if_neg (not_not_intro hmounted)] at h₃
  obtain ⟨restored, log₄, rfl, -⟩ := Prog.trace_perform_bind_iff.mp h₃
  exact ⟨restored, by simp⟩

/-- A backup that succeeds has given the name of the image to the handler of the partition. -/
theorem backup_run {log : List (Σ _ : BackupOp, Int)}
    (hrun : Prog.Trace (nandroidBackupPartitionExtended env state backup_path mount_point umount)
      log (some 0)) (hbackup : ⟨.backup handler mount_point tmp, ret⟩ ∈ log) :
    tmp = imageName env state backup_path mount_point ∧
      getBackupHandler env state mount_point = some (some handler) := by
  rw [nandroidBackupPartitionExtended] at hrun
  obtain ⟨mounted, log₁, rfl, h₁⟩ := Prog.trace_perform_bind_iff.mp hrun
  by_cases hmounted : mounted ≠ 0
  · rw [if_pos hmounted] at h₁
    cases (Prog.trace_ret_iff.mp h₁).2
  rw [if_neg hmounted] at h₁
  obtain ⟨stats, log₂, rfl, h₂⟩ := Prog.trace_perform_bind_iff.mp h₁
  dsimp only at h₂
  cases hhandler : getBackupHandler env state mount_point with
  | none =>
    rw [hhandler] at h₂
    cases (Prog.trace_ret_iff.mp h₂).2
  | some found =>
    rw [hhandler] at h₂
    cases found with
    | none => cases (Prog.trace_ret_iff.mp h₂).2
    | some chosen =>
      obtain ⟨made, log₃, rfl, h₃⟩ := Prog.trace_perform_bind_iff.mp h₂
      have hnone : (⟨.backup handler mount_point tmp, ret⟩ : Σ _ : BackupOp, Int) ∉ log₃ := by
        cases umount with
        | true =>
          obtain ⟨unmounted, log₄, rfl, h₄⟩ := Prog.trace_perform_bind_iff.mp h₃
          rw [(Prog.trace_ret_iff.mp h₄).1]
          simp
        | false =>
          rw [(Prog.trace_ret_iff.mp h₃).1]
          simp
      simp only [List.mem_cons, Sigma.mk.injEq, reduceCtorEq, false_and, false_or,
        BackupOp.backup.injEq, true_and, hnone, or_false] at hbackup
      exact ⟨hbackup.1.2, by rw [hbackup.1.1]⟩

theorem volume_of_handler (h : getBackupHandler env state mount_point = some (some handler)) :
    ∃ v, volumeForPath env mount_point = some v := by
  cases hvol : volumeForPath env mount_point with
  | none =>
    rw [getBackupHandler, hvol] at h
    cases h
  | some v => exact ⟨v, rfl⟩

/-- The name has the reported file system, or else `auto`. -/
theorem imageName_eq : imageName env state backup_path mount_point =
    imagePath backup_path (basename mount_point)
      ((reported env state mount_point).getD (ascii "auto")) := by
  rw [imageName]
  cases reported env state mount_point with
  | none => rfl
  | some fs => rfl

theorem imagePath_append (name s : Bytes) :
    imagePath backup_path name fs ++ s = imagePath backup_path name (fs ++ s) := by
  rw [imagePath, imagePath, List.append_assoc]

/-- An image of a listed file system is found, and given to the inverse handler. -/
theorem picks_of_listed (hvol : volumeForPath env mount_point = some v)
    (hdir : HoldsOnly env backup_path (basename mount_point) handler
      (imagePath backup_path (basename mount_point) (fs ++ handler.suffix)))
    (hlisted : fs ∈ filesystems) :
    Picks env backup_path mount_point umount handler.inverse
      (imagePath backup_path (basename mount_point) (fs ++ handler.suffix)) := by
  intro log status htrace hzero
  rw [nandroidRestorePartitionExtended] at htrace
  dsimp only at htrace
  rw [hdir.no_plain, if_neg Bool.false_ne_true, hdir.findImage, if_pos hlisted] at htrace
  dsimp only at htrace
  rw [hvol] at htrace
  exact restoreImage_restores hvol htrace hzero

/-- An image of any other file system is not found, and the restore skips the partition. -/
theorem not_picks_of_unlisted {img : Bytes} {restore_handler : RestoreHandler}
    (hdir : HoldsOnly env backup_path (basename mount_point) handler
      (imagePath backup_path (basename mount_point) (fs ++ handler.suffix)))
    (hlisted : fs ∉ filesystems) :
    ¬Picks env backup_path mount_point umount restore_handler img := by
  intro hpicks
  have hskip : Prog.Trace (nandroidRestorePartitionExtended env backup_path mount_point umount) []
      (some 0) := by
    rw [nandroidRestorePartitionExtended]
    dsimp only
    rw [hdir.no_plain, if_neg Bool.false_ne_true, hdir.findImage, if_neg hlisted]
    exact .ret
  obtain ⟨ret, hmem⟩ := hpicks [] (some 0) hskip fun _ he => absurd he List.not_mem_nil
  cases hmem

theorem volumeForPath_congr (h : env'.device_volumes = env.device_volumes) (path : Bytes) :
    volumeForPath env' path = volumeForPath env path := by
  rw [volumeForPath, volumeForPath, h]

/-- After a backup that succeeded, with its image as the only one for the partition, the restore
gives the image to the inverse handler just when the mount table reported one of the file
systems that the restore looks for. -/
theorem backup_restorable_iff (env env' : Env) (state : BackupState)
    (backup_path mount_point tmp : Bytes) (umount umount' : Bool)
    (log : List (Σ _ : BackupOp, Int)) (handler : BackupHandler) (ret : Int)
    (hvolumes : env'.device_volumes = env.device_volumes)
    (hrun : Prog.Trace (nandroidBackupPartitionExtended env state backup_path mount_point umount)
      log (some 0)) (hbackup : ⟨.backup handler mount_point tmp, ret⟩ ∈ log)
    (hdir : HoldsOnly env' backup_path (basename mount_point) handler (tmp ++ handler.suffix)) :
    Picks env' backup_path mount_point umount' handler.inverse (tmp ++ handler.suffix) ↔
      ∃ fs ∈ filesystems, reported env state mount_point = some fs := by
  obtain ⟨rfl, hhandler⟩ := backup_run hrun hbackup
  obtain ⟨v, hvol⟩ := volume_of_handler hhandler
  rw [← volumeForPath_congr hvolumes] at hvol
  rw [imageName_eq, imagePath_append] at hdir ⊢
  cases hreported : reported env state mount_point with
  | none =>
    rw [hreported] at hdir
    refine iff_of_false (not_picks_of_unlisted hdir (by decide)) ?_
    rintro ⟨fs, -, hsome⟩
    cases hsome
  | some fs =>
    rw [hreported] at hdir
    by_cases hlisted : fs ∈ filesystems
    · exact iff_of_true (picks_of_listed hvol hdir hlisted) ⟨fs, hlisted, rfl⟩
    · refine iff_of_false (not_picks_of_unlisted hdir hlisted) ?_
      rintro ⟨fs', hlisted', hsome⟩
      cases hsome
      exact hlisted hlisted'

end Runs

/-! ## A device -/

/-- A device with a data partition, and a backup directory with one image of it. -/
def dataDevice (img : Bytes) : Env where
  device_volumes := [⟨ascii "/data", some (ascii "/dev/block/mmcblk0p2"), ascii "ext4"⟩]
  stat file := file = img
  serialno := []
  prefer_tar := ascii "false"
  filesystem _ := none

/-- Everything is mounted with the same file system, and images are made with `tar`. -/
def mountedAs (fs : Bytes) : BackupState := ⟨fun _ => some (some fs), [], some .tar_compress_wrapper⟩

def dataLog (tmp : Bytes) : List (Σ _ : BackupOp, Int) :=
  [⟨.ensure_path_mounted (ascii "/data"), 0⟩, ⟨.compute_directory_stats (ascii "/data"), 0⟩,
    ⟨.backup .tar_compress_wrapper (ascii "/data") tmp, 0⟩]

theorem dataDevice_holdsOnly (backup_path name img : Bytes) :
    HoldsOnly (dataDevice img) backup_path name .tar_compress_wrapper img where
  holds := decide_eq_true rfl
  only _ h := .inl (of_decide_eq_true h)

theorem backup_restorable_ext4 :
    Picks (dataDevice (ascii "/b/data.ext4.tar")) (ascii "/b") (ascii "/data") true
      .tar_extract_wrapper (ascii "/b/data.ext4.tar") :=
  (backup_restorable_iff (dataDevice []) (dataDevice (ascii "/b/data.ext4.tar"))
    (mountedAs (ascii "ext4")) (ascii "/b") (ascii "/data") (ascii "/b/data.ext4") false true
    (dataLog (ascii "/b/data.ext4")) .tar_compress_wrapper 0 rfl
    (.op (.op (.op .ret))) (by simp [dataLog])
    (dataDevice_holdsOnly _ _ _)).mpr ⟨ascii "ext4", by decide, by decide⟩

/-- A partition that is mounted as `f2fs` is backed up, and the restore does not see the image. -/
theorem backup_unseen_f2fs :
    ¬∀ (env env' : Env) (state : BackupState) (backup_path mount_point tmp : Bytes)
      (umount umount' : Bool) (log : List (Σ _ : BackupOp, Int)) (handler : BackupHandler)
      (ret : Int), env'.device_volumes = env.device_volumes →
      Prog.Trace (nandroidBackupPartitionExtended env state backup_path mount_point umount) log
        (some 0) → ⟨.backup handler mount_point tmp, ret⟩ ∈ log →
      HoldsOnly env' backup_path (basename mount_point) handler (tmp ++ handler.suffix) →
      Picks env' backup_path mount_point umount' handler.inverse (tmp ++ handler.suffix) := by
  intro h
  have hpicks := h (dataDevice []) (dataDevice (ascii "/b/data.f2fs.tar"))
    (mountedAs (ascii "f2fs")) (ascii "/b") (ascii "/data") (ascii "/b/data.f2fs") false true
    (dataLog (ascii "/b/data.f2fs")) .tar_compress_wrapper 0 rfl
    (.op (.op (.op .ret))) (by simp [dataLog]) (dataDevice_holdsOnly _ _ _)
  have hdir := dataDevice_holdsOnly (ascii "/b") (basename (ascii "/data"))
    (imagePath (ascii "/b") (basename (ascii "/data")) (ascii "f2fs" ++ ascii ".tar"))
  exact @not_picks_of_unlisted _ (ascii "/b") (ascii "/data") (ascii "f2fs") .tar_compress_wrapper
    true _ _ hdir (by decide) hpicks

end BootableRecovery.Nandroid
