import BootableRecovery.Lib.Machine
import BootableRecovery.Lib.EditScript
import BootableRecovery.Applypatch.Bspatch
import BootableRecovery.Applypatch.Bsdiff
import BootableRecovery.Lib.Probing
import BootableRecovery.Minzip.Hash
import BootableRecovery.Lib.BinarySearch
import BootableRecovery.Minzip.Zip
import BootableRecovery.Verifier
import BootableRecovery.Mtdutils
import BootableRecovery.Lib.CString
import BootableRecovery.Lib.Prog
import BootableRecovery.Recovery.Args
import BootableRecovery.Recovery.Main
import BootableRecovery.Dedupe.Manifest
import BootableRecovery.Dedupe.Store
import BootableRecovery.Dedupe.Extract
import BootableRecovery.BmlOverMtd
import BootableRecovery.CommandPipe
import BootableRecovery.Edify.Lexer
import BootableRecovery.Edify.Parser
import BootableRecovery.Edify.Print
import BootableRecovery.Edify.Drivers
import BootableRecovery.Edify.Ranges
import BootableRecovery.Applypatch.BspatchRuns
import BootableRecovery.Applypatch.Imgpatch
import BootableRecovery.Applypatch.ImgpatchReports
import BootableRecovery.Applypatch.Imgdiff
import BootableRecovery.Applypatch.Merge
import BootableRecovery.KeyQueue
import BootableRecovery.Nandroid.Restore
import BootableRecovery.Nandroid.Backup
import BootableRecovery.Lib.Slots
import BootableRecovery.Retouch
import BootableRecovery.Applypatch.Applypatch
import BootableRecovery.Applypatch.Frames
import BootableRecovery.Applypatch.Rules
import BootableRecovery.Minzip.Contents
import BootableRecovery.Minzip.Bounds
import BootableRecovery.Minzip.Recursive
import BootableRecovery.Retouch.Confinement
import BootableRecovery.Applypatch.Partition
import BootableRecovery.Applypatch.Replacement
import BootableRecovery.Applypatch.Idempotence
import BootableRecovery.Applypatch.SourceKept
import BootableRecovery.Applypatch.CrashSafety
import BootableRecovery.Applypatch.Hashed
import BootableRecovery.Applypatch.Sha1Codec
import BootableRecovery.Applypatch.FreeSpace
import BootableRecovery.Edify.Compare
import BootableRecovery.Bmlutils
import BootableRecovery.Lib.Stdio
import BootableRecovery.Mmcutils
import BootableRecovery.Mtdutils.Chunking
import BootableRecovery.Mtdutils.Attempts
import BootableRecovery.Mtdutils.RawRestore
import BootableRecovery.Mtdutils.RawBackup
import BootableRecovery.Lib.Pointer
import BootableRecovery.Updater.FileGetProp
import BootableRecovery.Lib.Scanf
import BootableRecovery.Recovery.LoadKeys
import BootableRecovery.Mmcutils.ReadMbr
import BootableRecovery.Mtdutils.Clean
import BootableRecovery.Recovery.MiscPartition
import BootableRecovery.Dedupe.Gc
import BootableRecovery.Dedupe.Garbage
import BootableRecovery.Dedupe.CopyErrors
import BootableRecovery.Recovery.FilteredMenu
import BootableRecovery.Recovery.MenuWindow
import BootableRecovery.Iniparse
import BootableRecovery.Settings
import BootableRecovery.Recovery.OpenRecoveryScript
import BootableRecovery.Mounts
import BootableRecovery.AddPropertyTag
import BootableRecovery.Lib.StopAndWait
import BootableRecovery.Minadbd.Sockets
import BootableRecovery.Minadbd.Party
import BootableRecovery.Minadbd.Streams
import BootableRecovery.Minadbd.Delivery
import BootableRecovery.Lib.Abortable
import BootableRecovery.Edify.Eval
import BootableRecovery.Edify.Scripts
import BootableRecovery.Edify.Functions
import BootableRecovery.Ui.TextLog
import BootableRecovery.Updater.Functions
import BootableRecovery.Updater.Main
