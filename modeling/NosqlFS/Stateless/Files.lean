import NosqlFS.Interaction.Slots
import NosqlFS.Names.Namespace
import NosqlFS.Runs.Logging

/-!
# A host that keeps files

Files are inodes with permission bits and contents, named by paths.  Permission is
checked when a path is opened; a transfer goes to the inode that its descriptor was
opened on.  Directories are not kept, and every inode has contents.
-/

namespace NosqlFS

open Interaction Text Paths Slots

/-! ## Files -/

structure Inode where
  permissions : Nat
  content : Bytes
  deriving DecidableEq, Repr

/-- Inodes, their names, and the number of the next inode. -/
structure Files where
  names : Space Bytes Nat
  inodes : Nat → Inode
  next : Nat

/-- What a host decides for the process: which flags permission bits admit, the bits that
a creation mode leaves after the file mode mask, and what the log is told. -/
structure HostRules where
  admits : Nat → Nat → Bool
  granted : Nat → Nat
  time : Int
  localtime : Int → Tm
  strerror : Int → Bytes

def oTrunc : Nat := 512

/-- The largest number of bytes that one transfer moves. -/
def maxTransfer : Nat := 2147479552

def resize (content : Bytes) (size : Nat) : Bytes :=
  content.take size ++ List.replicate (size - content.length) 0

/-- The contents after data at an offset; a gap is filled with zeros. -/
def overwrite (content : Bytes) (offset : Nat) (data : Bytes) : Bytes :=
  if data = [] then content
  else resize content offset ++ data ++ content.drop (offset + data.length)

namespace Files

variable (rules : HostRules) (files : Files)

def inodeAt (path : Bytes) : Option Nat := files.names (components path)

def setInode (ino : Nat) (inode : Inode) : Files :=
  { files with inodes := Function.update files.inodes ino inode }

def setContent (ino : Nat) (content : Bytes) : Files :=
  files.setInode ino { files.inodes ino with content := content }

/-- A new inode under a new name. -/
def create (path : Bytes) (mode : Nat) : Except Errno Files :=
  match files.inodeAt path with
  | some _ => .error .eexist
  | none => .ok ⟨files.names.insert (components path) files.next,
      Function.update files.inodes files.next ⟨rules.granted mode, []⟩, files.next + 1⟩

/-- The inode that `open` finds or makes. -/
def openAt (path : Bytes) (flags mode : Nat) : Except Errno (Nat × Files) :=
  match files.inodeAt path with
  | some ino =>
      if flags &&& oCreat ≠ 0 ∧ flags &&& oExcl ≠ 0 then .error .eexist
      else if rules.admits (files.inodes ino).permissions flags then
        .ok (ino, if flags &&& oTrunc ≠ 0 then files.setContent ino [] else files)
      else .error .eacces
  | none =>
      if flags &&& oCreat ≠ 0 then
        (files.create rules path mode).map fun created => (files.next, created)
      else .error .enoent

def preadAt (ino size : Nat) (offset : Int) : Except Errno Bytes :=
  if offset < 0 then .error .einval
  else .ok (((files.inodes ino).content.drop offset.toNat).take (min size maxTransfer))

def pwriteAt (ino : Nat) (data : Bytes) (offset : Int) : Except Errno (Nat × Files) :=
  if offset < 0 then .error .einval
  else .ok ((data.take maxTransfer).length,
    files.setContent ino
      (overwrite (files.inodes ino).content offset.toNat (data.take maxTransfer)))

def chmodAt (path : Bytes) (mode : Nat) : Except Errno Files :=
  match files.inodeAt path with
  | some ino => .ok (files.setInode ino { files.inodes ino with permissions := mode &&& 4095 })
  | none => .error .enoent

def truncateAt (path : Bytes) (size : Int) : Except Errno Files :=
  if size < 0 then .error .einval
  else match files.inodeAt path with
    | some ino =>
        if rules.admits (files.inodes ino).permissions oWronly then
          .ok (files.setContent ino (resize (files.inodes ino).content size.toNat))
        else .error .eacces
    | none => .error .enoent

def unlinkAt (path : Bytes) : Except Errno Files :=
  match files.inodeAt path with
  | some _ => .ok { files with names := files.names.erase (components path) }
  | none => .error .enoent

/-- Between two names of one inode nothing happens. -/
def renameAt (from_ to_ : Bytes) : Except Errno Files :=
  match files.inodeAt from_ with
  | none => .error .enoent
  | some ino =>
      if files.inodeAt to_ = some ino then .ok files
      else if components from_ <+: components to_ then .error .einval
      else .ok { files with names := files.names.move (components from_) (components to_) }

/-- Creation fails on a taken path only. -/
theorem create_error {rules : HostRules} {files : Files} {path : Bytes} {mode : Nat} {e : Errno}
    (refused : files.create rules path mode = .error e) : e = .eexist := by
  unfold create at refused
  split at refused
  · cases refused
    rfl
  · cases refused

/-- An exclusive `open` creates. -/
theorem openAt_exclusive {path : Bytes} {mode : Nat} :
    files.openAt rules path (oCreat ||| oExcl ||| oWronly) mode =
      (files.create rules path mode).map fun created => (files.next, created) := by
  have creates : (oCreat ||| oExcl ||| oWronly) &&& oCreat ≠ 0 := by decide
  have excludes : (oCreat ||| oExcl ||| oWronly) &&& oExcl ≠ 0 := by decide
  unfold openAt
  cases found : files.inodeAt path with
  | none => exact if_pos creates
  | some ino =>
      unfold create
      rw [found]
      exact if_pos ⟨creates, excludes⟩

end Files

/-! ## The process -/

/-- A descriptor's inode and the flags it was opened with. -/
structure OpenFile where
  inode : Nat
  flags : Nat
  deriving DecidableEq, Repr

def OpenFile.Reads (file : OpenFile) : Prop := file.flags &&& oAccmode ≠ oWronly

def OpenFile.Writes (file : OpenFile) : Prop := file.flags &&& oAccmode ≠ oRdonly

instance (file : OpenFile) : Decidable file.Reads := inferInstanceAs (Decidable (_ ≠ _))
instance (file : OpenFile) : Decidable file.Writes := inferInstanceAs (Decidable (_ ≠ _))

/-- Files, the descriptors of the process, and what reads have put into memory. -/
structure HostFiles where
  files : Files
  descriptors : Table OpenFile
  received : List (Nat × Bytes)

namespace HostFiles

variable (rules : HostRules) (w : HostFiles)

def find (fd : Int) : Option OpenFile := if 0 ≤ fd then lookup w.descriptors fd.toNat else none

def open_ (path : Bytes) (flags mode : Nat) : Except Errno Nat × HostFiles :=
  match w.files.openAt rules path flags mode with
  | .error e => (.error e, w)
  | .ok (ino, files) => (.ok (allocate ⟨ino, flags⟩ w.descriptors).1,
      { w with files := files, descriptors := (allocate ⟨ino, flags⟩ w.descriptors).2 })

def close (fd : Int) : Except Errno Unit × HostFiles :=
  match w.find fd with
  | none => (.error .ebadf, w)
  | some _ => (.ok (), { w with descriptors := release w.descriptors fd.toNat })

def pread (fd : Int) (buf size : Nat) (offset : Int) : Except Errno Bytes × HostFiles :=
  match w.find fd with
  | none => (.error .ebadf, w)
  | some file =>
      if file.Reads then
        match w.files.preadAt file.inode size offset with
        | .error e => (.error e, w)
        | .ok copied => (.ok copied, { w with received := w.received ++ [(buf, copied)] })
      else (.error .ebadf, w)

/-- The data goes to the offset, as POSIX has it, also if the file was opened with `O_APPEND`. -/
def pwrite (fd : Int) (data : Bytes) (offset : Int) : Except Errno Nat × HostFiles :=
  match w.find fd with
  | none => (.error .ebadf, w)
  | some file =>
      if file.Writes then
        match w.files.pwriteAt file.inode data offset with
        | .error e => (.error e, w)
        | .ok (written, files) => (.ok written, { w with files := files })
      else (.error .ebadf, w)

/-- The answer of a call that changes files by path. -/
def update : Except Errno Files → Except Errno Unit × HostFiles
  | .ok files => (.ok (), { w with files := files })
  | .error e => (.error e, w)

/-- The calls of the requests on files.  Writing the log leaves `errno` alone. -/
def machine : Machine HostFiles HostCall HostCall.Answer := fun w c => match c with
  | .time => some (rules.time, w)
  | .localtime timep => some (rules.localtime timep, w)
  | .strftime _ => some ((), w)
  | .fputs _ => some ((), w)
  | .vfprintf .. => some (.keep, w)
  | .strerror errnum => some (rules.strerror errnum, w)
  | .openPath path flags mode => some (w.open_ rules path flags mode)
  | .close fd => some (w.close fd)
  | .pread fd buf size offset => some (w.pread fd buf size offset)
  | .pwrite fd buf size offset => some (w.pwrite fd (buf.target.take size) offset)
  | .mkfifo path mode => some (w.update (w.files.create rules path mode))
  | .mknod path mode _ => some (w.update (w.files.create rules path mode))
  | .unlink path => some (w.update (w.files.unlinkAt path))
  | .rename from_ to_ => some (w.update (w.files.renameAt from_ to_))
  | .chmod path mode => some (w.update (w.files.chmodAt path mode))
  | .truncate path size => some (w.update (w.files.truncateAt rules path size))
  | _ => none

end HostFiles

/-! ## Runs of the logging functions -/

section Run

variable {rules : HostRules} {s : ThreadLocal} {w : HostFiles}

@[simp]
theorem run_logMsg (format : String) (args : List Arg) :
    run (HostFiles.machine rules) 0 (logMsg format args) s w = some ((), s, w) := rfl

theorem run_logSyscall (func : String) (retstat : Int) :
    run (HostFiles.machine rules) 0 (logSyscall func retstat 0) s w =
      some (if retstat < 0 then -s.errno else retstat, s, w) := by
  unfold logSyscall
  split <;> rfl

@[simp]
theorem run_logFi (fi : Pointer FuseFileInfo) :
    run (HostFiles.machine rules) 0 (logFi fi) s w = some ((), s, w) := rfl

/-- A call that follows the C convention, answered. -/
theorem run_hostCall {α : Type} {c : HostCall} {next : c.Answer → Handler Int} {value : α → Int}
    {outcome : c.Answer → Except Errno α}
    (follows : ∀ answer, next answer = fromHost value (outcome answer)) {answer : c.Answer}
    {w' : HostFiles} (answered : HostFiles.machine rules w c = some (answer, w')) :
    run (HostFiles.machine rules) 0 (.call c next) s w =
      match outcome answer with
      | .ok got => some (value got, s, w')
      | .error e => some (-1, s.withErrno e.code, w') := by
  rw [run_call c next answered, follows]
  cases outcome answer <;> rfl

/-- The reply that a handler makes of the outcome of its call. -/
def replyTo {α : Type} (value : α → Int) : Except Errno α → Int
  | .ok got => value got
  | .error e => -e.code

/-- Its result through `log_syscall`, narrowed to an `int` where the handler does so. -/
theorem run_loggedHostCall {α : Type} {c : HostCall} {next : c.Answer → Handler Int}
    {value : α → Int} {outcome : c.Answer → Except Errno α} {func : String} {narrow : Int → Int}
    (follows : ∀ answer, next answer = fromHost value (outcome answer)) {answer : c.Answer}
    (natural : ∀ got, outcome answer = .ok got → 0 ≤ value got ∧ narrow (value got) = value got)
    (failed : narrow (-1) = -1) {w' : HostFiles}
    (answered : HostFiles.machine rules w c = some (answer, w')) :
    ∃ s', run (HostFiles.machine rules) 0
        ((Program.call c next).andThen fun result => logSyscall func (narrow result) 0) s w =
      some (replyTo value (outcome answer), s', w') := by
  rw [run_andThen, run_hostCall follows answered]
  cases found : outcome answer with
  | ok got =>
      obtain ⟨positive, same⟩ := natural got found
      refine ⟨s, ?_⟩
      simp only [Option.bind_some, run_logSyscall, same]
      rw [if_neg (by omega)]
      rfl
  | error e =>
      refine ⟨s.withErrno e.code, ?_⟩
      simp only [Option.bind_some, run_logSyscall, failed]
      rfl

end Run

end NosqlFS
