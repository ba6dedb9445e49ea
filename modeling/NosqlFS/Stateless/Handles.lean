import NosqlFS.Errors.Transfer
import NosqlFS.Source.Main
import NosqlFS.Stateless.Files

/-!
# Reopening against keeping a descriptor

Two systems over the same files.  The program keeps nothing between `open` and a
transfer and opens the path again; the reference keeps the descriptor of `open` in
`fi->fh` and uses it until `release`.
-/

namespace NosqlFS

open Interaction Text Paths Slots

/-! ## The reference handlers -/

def withHandle (fi : Pointer FuseFileInfo) (fh : Nat) : Pointer FuseFileInfo :=
  { fi with target := { fi.target with fh := fh } }

/-- `nosqlFS_open` with `fi->fh = fd` in place of the `close`: the reply and the handle. -/
def handleOpen (path : Bytes) (fi : Pointer FuseFileInfo) : Handler (Int × Nat) := do
  logMsg "nosqlFS_open(path = \"%s\", fuse_file_info = 0x%08x)\n" [.str path, .int fi.address]
  let opened ← openPath path fi.target.flags 0
  let retstat ← logSyscall "open" opened 0
  logFi (withHandle fi retstat.toNat)
  if retstat < 0 then
    return (retstat, 0)
  else
    return (0, retstat.toNat)

/-- `nosqlFS_read` on the descriptor in `fi->fh`. -/
def handleRead (path : Bytes) (buf size : Nat) (offset : Int) (fi : Pointer FuseFileInfo) :
    Handler Int := do
  logMsg "nosqlFS_read(path = \"%s\", buf = 0x%08x, size = %d, offset = %lld, fuse_file_info = 0x%08x)\n"
    [.str path, .int buf, .int size, .int offset, .int fi.address]
  let copied ← pread fi.target.fh buf size offset
  logSyscall "pread" (toInt copied) 0

/-- `nosqlFS_write` on the descriptor in `fi->fh`. -/
def handleWrite (path : Bytes) (buf : Pointer Bytes) (size : Nat) (offset : Int)
    (fi : Pointer FuseFileInfo) : Handler Int := do
  logMsg "nosqlFS_write(path = \"%s\", buf = 0x%08x, size = %d, offset = %lld, fuse_file_info = 0x%08x)\n"
    [.str path, .int buf.address, .int size, .int offset, .int fi.address]
  let written ← pwrite fi.target.fh buf size offset
  logSyscall "pwrite" (toInt written) 0

def handleRelease (path : Bytes) (fi : Pointer FuseFileInfo) : Handler Int := do
  logMsg "nosqlFS_release(path = \"%s\", fuse_file_info = 0x%08x)\n" [.str path, .int fi.address]
  let _ ← close fi.target.fh
  return 0

/-! ## The two systems -/

/-- A request of some client on files; the first argument of the first four is the
client's open file. -/
inductive Operation where
  | openFile (handle : Nat) (path : Bytes) (fi : Pointer FuseFileInfo)
  | read (handle : Nat) (path : Bytes) (buf size : Nat) (offset : Int) (fi : Pointer FuseFileInfo)
  | write (handle : Nat) (path : Bytes) (buf : Pointer Bytes) (size : Nat) (offset : Int)
      (fi : Pointer FuseFileInfo)
  | release (handle : Nat) (path : Bytes) (fi : Pointer FuseFileInfo)
  | chmod (path : Bytes) (mode : Nat)
  | truncate (path : Bytes) (size : Int)
  | unlink (path : Bytes)
  | rename (from_ to_ : Bytes) (flags : Nat)
  | mknod (path : Bytes) (mode rdev : Nat)
  deriving DecidableEq, Repr

/-- The request that the program is handed; open files do not appear in it. -/
def Operation.request : Operation → Request
  | .openFile _ path fi => .openFile path fi
  | .read _ path buf size offset fi => .read path buf size offset fi
  | .write _ path buf size offset fi => .write path buf size offset fi
  | .release _ path fi => .release path fi
  | .chmod path mode => .chmod path mode
  | .truncate path size => .truncate path size
  | .unlink path => .unlink path
  | .rename from_ to_ flags => .rename from_ to_ flags
  | .mknod path mode rdev => .mknod path mode rdev

/-- An operation with its reply. -/
abbrev Served : Type := Operation × Int

/-- The program serves an operation on a thread with any registers. -/
def ProgramStep (rules : HostRules) (w : HostFiles) (served : Served) (w' : HostFiles) : Prop :=
  ∃ s s', run (HostFiles.machine rules) 0 (nosqlFSOper served.1.request) s w =
    some (served.2, s', w')

/-- The host of the reference and the descriptors of the open files. -/
structure HandleHost where
  host : HostFiles
  handles : Nat → Option Nat

def ReferenceStep (rules : HostRules) (r : HandleHost) (served : Served) (r' : HandleHost) : Prop :=
  match served.1 with
  | .openFile handle path fi => ∃ s s' fh w',
      run (HostFiles.machine rules) 0 (handleOpen path fi) s r.host =
        some ((served.2, fh), s', w') ∧
      r' = ⟨w', if served.2 = 0 then Function.update r.handles handle (some fh) else r.handles⟩
  | .read handle path buf size offset fi => ∃ s s' fh w', r.handles handle = some fh ∧
      run (HostFiles.machine rules) 0 (handleRead path buf size offset (withHandle fi fh)) s r.host =
        some (served.2, s', w') ∧ r' = ⟨w', r.handles⟩
  | .write handle path buf size offset fi => ∃ s s' fh w', r.handles handle = some fh ∧
      run (HostFiles.machine rules) 0 (handleWrite path buf size offset (withHandle fi fh)) s r.host =
        some (served.2, s', w') ∧ r' = ⟨w', r.handles⟩
  | .release handle path fi => ∃ s s' fh w', r.handles handle = some fh ∧
      run (HostFiles.machine rules) 0 (handleRelease path (withHandle fi fh)) s r.host =
        some (served.2, s', w') ∧ r' = ⟨w', Function.update r.handles handle none⟩
  | operation => ∃ s s' w',
      run (HostFiles.machine rules) 0 (nosqlFSOper operation.request) s r.host =
        some (served.2, s', w') ∧ r' = ⟨w', r.handles⟩

/-- What the descriptor of an open file was opened on. -/
def HandleHost.opened (r : HandleHost) (handle : Nat) : Option OpenFile :=
  (r.handles handle).bind fun fh => r.host.find fh

/-- Opens succeed on the host, and transfers are within the access mode of the open. -/
def Allowed (rules : HostRules) (r : HandleHost) : Operation → Prop
  | .openFile handle path fi => r.handles handle = none ∧
      ∃ found, r.host.files.openAt rules path fi.target.flags 0 = .ok found
  | .read handle .. => ∃ file, r.opened handle = some file ∧ file.Reads
  | .write handle .. => ∃ file, r.opened handle = some file ∧ file.Writes
  | .release handle .. => (r.opened handle).isSome = true
  | _ => True

/-- The path still names what was opened, and may be opened again for the transfer. -/
def Reopens (rules : HostRules) (r : HandleHost) (handle : Nat) (path : Bytes) (flags : Nat) : Prop :=
  ∀ file, r.opened handle = some file → r.host.files.inodeAt path = some file.inode ∧
    rules.admits (r.host.files.inodes file.inode).permissions flags = true

def Current (rules : HostRules) (r : HandleHost) : Operation → Prop
  | .read handle path .. => Reopens rules r handle path oRdonly
  | .write handle path .. => Reopens rules r handle path oWronly
  | _ => True

/-- The same files, and the same bytes received by reads. -/
structure Agree (w other : HostFiles) : Prop where
  files : w.files = other.files
  received : w.received = other.received

/-! ## Transfers -/

/-- What a read puts into memory. -/
def receivedFrom (buf : Nat) : Except Errno Bytes → List (Nat × Bytes)
  | .ok copied => [(buf, copied)]
  | .error _ => []

/-- The files after a write. -/
def writtenBy (files : Files) : Except Errno (Nat × Files) → Files
  | .ok (_, changed) => changed
  | .error _ => files

section Transfers

variable {rules : HostRules} {s : ThreadLocal} {w : HostFiles} {fd : Int} {file : OpenFile}

theorem preadAt_fits {files : Files} {ino size : Nat} {offset : Int} {copied : Bytes}
    (moved : files.preadAt ino size offset = .ok copied) : copied.length ≤ maxTransfer := by
  unfold Files.preadAt at moved
  split at moved
  · cases moved
  · cases moved
    rw [List.length_take]
    omega

theorem pwriteAt_fits {files changed : Files} {ino written : Nat} {data : Bytes} {offset : Int}
    (moved : files.pwriteAt ino data offset = .ok (written, changed)) : written ≤ maxTransfer := by
  unfold Files.pwriteAt at moved
  split at moved
  · cases moved
  · cases moved
    rw [List.length_take]
    omega

theorem toInt_of_transfer {n : Nat} (fits : n ≤ maxTransfer) : toInt n = n := by
  unfold maxTransfer at fits
  exact toInt_of_small (by omega) (by omega)

/-- A read on a descriptor that was opened for reading. -/
theorem run_preadLogged (found : w.find fd = some file) (reads : file.Reads) {buf size : Nat}
    {offset : Int} :
    ∃ s', run (HostFiles.machine rules) 0 ((pread fd buf size offset).andThen fun copied =>
        logSyscall "pread" (toInt copied) 0) s w =
      some (replyTo (fun copied => copied.length) (w.files.preadAt file.inode size offset), s',
        { w with received := w.received ++
          receivedFrom buf (w.files.preadAt file.inode size offset) }) := by
  have outcome : w.pread fd buf size offset = (w.files.preadAt file.inode size offset,
      { w with received := w.received ++
        receivedFrom buf (w.files.preadAt file.inode size offset) }) := by
    unfold HostFiles.pread
    simp only [found, reads, if_true]
    cases w.files.preadAt file.inode size offset with
    | ok copied => rfl
    | error e => simp [receivedFrom]
  have answered : HostFiles.machine rules w (.pread fd buf size offset) =
      some (w.pread fd buf size offset) := rfl
  rw [outcome] at answered
  have fits : ∀ copied : Bytes, w.files.preadAt file.inode size offset = .ok copied →
      (0 : Int) ≤ copied.length ∧ toInt copied.length = copied.length :=
    fun copied moved => ⟨Int.natCast_nonneg _, toInt_of_transfer (preadAt_fits moved)⟩
  exact @run_loggedHostCall rules s w _ _ _ _ id "pread" toInt (fun _ => rfl) _ fits rfl _ answered

/-- A write on a descriptor that was opened for writing. -/
theorem run_pwriteLogged (found : w.find fd = some file) (writes : file.Writes)
    {buf : Pointer Bytes} {size : Nat} {offset : Int} :
    ∃ s', run (HostFiles.machine rules) 0 ((pwrite fd buf size offset).andThen fun written =>
        logSyscall "pwrite" (toInt written) 0) s w =
      some (replyTo (fun moved => (moved.1 : Int))
          (w.files.pwriteAt file.inode (buf.target.take size) offset), s',
        { w with files := (writtenBy w.files
            (w.files.pwriteAt file.inode (buf.target.take size) offset)) }) := by
  have answered : HostFiles.machine rules w (.pwrite fd buf size offset) =
      some (w.pwrite fd (buf.target.take size) offset) := rfl
  unfold HostFiles.pwrite at answered
  simp only [found, writes, if_true] at answered
  have logged := fun answer => @run_loggedHostCall rules s w Nat (.pwrite fd buf size offset) _
    (fun n => n) id "pwrite" toInt (fun _ => rfl) answer
  cases moved : w.files.pwriteAt file.inode (buf.target.take size) offset with
  | ok result =>
      rw [moved] at answered
      refine logged (.ok result.1) (fun n counted => ?_) rfl answered
      cases counted
      exact ⟨Int.natCast_nonneg _, toInt_of_transfer (pwriteAt_fits moved)⟩
  | error e =>
      rw [moved] at answered
      refine logged (.error e) (fun n counted => ?_) rfl answered
      cases counted

/-! ## Opening and closing -/

/-- A logged `open` that succeeds. -/
theorem run_openLogged {path : Bytes} {flags mode ino : Nat} {files : Files}
    (opened : w.files.openAt rules path flags mode = .ok (ino, files)) {α : Type}
    (rest : Int → Handler α) :
    run (HostFiles.machine rules) 0 ((openPath path flags mode).andThen fun opened =>
        (logSyscall "open" opened 0).andThen rest) s w =
      run (HostFiles.machine rules) 0 (rest (allocate ⟨ino, flags⟩ w.descriptors).1) s
        { w with files := files, descriptors := (allocate ⟨ino, flags⟩ w.descriptors).2 } := by
  have answered : HostFiles.machine rules w (.openPath path flags mode) =
      some (w.open_ rules path flags mode) := rfl
  unfold HostFiles.open_ at answered
  rw [opened] at answered
  have positive := Int.natCast_nonneg (allocate ⟨ino, flags⟩ w.descriptors).1
  rw [run_andThen, openPath, run_hostCall (fun _ => rfl) answered]
  simp only [Option.bind_some, run_andThen, run_logSyscall]
  rw [if_neg (by omega)]

theorem find_allocated {value : OpenFile} {files : Files} :
    ({ w with files := files, descriptors := (allocate value w.descriptors).2 } : HostFiles).find
      (allocate value w.descriptors).1 = some value := by
  unfold HostFiles.find
  rw [if_pos (Int.natCast_nonneg _)]
  exact lookup_allocate value w.descriptors

/-- The descriptors after a close. -/
def closedTable (w : HostFiles) (fd : Int) : Table OpenFile :=
  if (w.find fd).isSome then release w.descriptors fd.toNat else w.descriptors

/-- A close whose result is dropped leaves everything but the descriptors alone. -/
theorem run_close {value : Int} :
    ∃ s', run (HostFiles.machine rules) 0 ((close fd).andThen fun _ => .done value) s w =
      some (value, s', { w with descriptors := closedTable w fd }) := by
  have answered : HostFiles.machine rules w (.close fd) = some (w.close fd) := rfl
  unfold HostFiles.close at answered
  unfold closedTable
  cases found : w.find fd with
  | none =>
      simp only [found] at answered
      exact ⟨_, by
        rw [run_andThen, close, run_hostCall (fun _ => rfl) answered]
        rfl⟩
  | some file =>
      simp only [found] at answered
      exact ⟨_, by
        rw [run_andThen, close, run_hostCall (fun _ => rfl) answered]
        rfl⟩

/-- A path that may be opened again for a transfer. -/
theorem openAt_reopened {path : Bytes} {flags ino : Nat} (named : w.files.inodeAt path = some ino)
    (admitted : rules.admits (w.files.inodes ino).permissions flags = true)
    (creates : flags &&& oCreat = 0) (truncates : flags &&& oTrunc = 0) :
    w.files.openAt rules path flags 0 = .ok (ino, w.files) := by
  unfold Files.openAt
  simp [named, admitted, creates, truncates]

/-- The program's read, where the path may be opened again. -/
theorem run_nosqlFSRead_reopened {path : Bytes} {buf size ino : Nat} {offset : Int}
    {fi : Pointer FuseFileInfo} (named : w.files.inodeAt path = some ino)
    (admitted : rules.admits (w.files.inodes ino).permissions oRdonly = true) :
    ∃ s' table, run (HostFiles.machine rules) 0 (nosqlFSRead path buf size offset fi) s w =
      some (replyTo (fun copied => copied.length) (w.files.preadAt ino size offset), s',
        { w with
          descriptors := table
          received := w.received ++ receivedFrom buf (w.files.preadAt ino size offset) }) := by
  have reads : (⟨ino, oRdonly⟩ : OpenFile).Reads := show oRdonly &&& oAccmode ≠ oWronly by decide
  unfold nosqlFSRead
  simp only [Program.bind_eq, Program.pure_eq]
  rw [run_openLogged (openAt_reopened named admitted rfl rfl), if_neg (by omega), run_andThen,
    run_logMsg, Option.bind_some, ← Program.andThen_assoc, run_andThen]
  obtain ⟨middle, copied⟩ := run_preadLogged find_allocated reads
  rw [copied, Option.bind_some]
  exact run_close.imp fun _ closed => ⟨_, closed⟩

/-- The program's write, where the path may be opened again. -/
theorem run_nosqlFSWrite_reopened {path : Bytes} {buf : Pointer Bytes} {size ino : Nat}
    {offset : Int} {fi : Pointer FuseFileInfo} (named : w.files.inodeAt path = some ino)
    (admitted : rules.admits (w.files.inodes ino).permissions oWronly = true) :
    ∃ s' table, run (HostFiles.machine rules) 0 (nosqlFSWrite path buf size offset fi) s w =
      some (replyTo (fun moved => (moved.1 : Int))
          (w.files.pwriteAt ino (buf.target.take size) offset), s',
        { w with
          files := (writtenBy w.files (w.files.pwriteAt ino (buf.target.take size) offset))
          descriptors := table }) := by
  have writes : (⟨ino, oWronly⟩ : OpenFile).Writes := show oWronly &&& oAccmode ≠ oRdonly by decide
  unfold nosqlFSWrite
  simp only [Program.bind_eq, Program.pure_eq]
  rw [run_andThen, run_logMsg, Option.bind_some,
    run_openLogged (openAt_reopened named admitted rfl rfl), if_neg (by omega),
    ← Program.andThen_assoc, run_andThen]
  obtain ⟨middle, written⟩ := run_pwriteLogged find_allocated writes
  rw [written, Option.bind_some]
  exact run_close.imp fun _ closed => ⟨_, closed⟩

/-! ## The handlers -/

/-- The program's `open` of a path that the host opens. -/
theorem run_nosqlFSOpen_granted {path : Bytes} {fi : Pointer FuseFileInfo} {ino : Nat}
    {files : Files} (opened : w.files.openAt rules path fi.target.flags 0 = .ok (ino, files)) :
    ∃ s' table, run (HostFiles.machine rules) 0 (nosqlFSOpen path fi) s w =
      some (0, s', { w with files := files, descriptors := table }) := by
  unfold nosqlFSOpen
  simp only [Program.bind_eq, Program.pure_eq]
  rw [run_andThen, run_logMsg, Option.bind_some, run_openLogged opened, run_andThen, run_logFi,
    Option.bind_some, if_neg (by omega)]
  exact run_close.imp fun _ closed => ⟨_, closed⟩

/-- The reference keeps the descriptor. -/
theorem run_handleOpen_granted {path : Bytes} {fi : Pointer FuseFileInfo} {ino : Nat}
    {files : Files} (opened : w.files.openAt rules path fi.target.flags 0 = .ok (ino, files)) :
    run (HostFiles.machine rules) 0 (handleOpen path fi) s w =
      some ((0, (allocate ⟨ino, fi.target.flags⟩ w.descriptors).1), s,
        { w with
          files := files
          descriptors := (allocate ⟨ino, fi.target.flags⟩ w.descriptors).2 }) := by
  unfold handleOpen
  simp only [Program.bind_eq, Program.pure_eq]
  rw [run_andThen, run_logMsg, Option.bind_some, run_openLogged opened, run_andThen, run_logFi,
    Option.bind_some, if_neg (by omega)]
  rfl

theorem run_handleRead {path : Bytes} {buf size : Nat} {offset : Int} {fi : Pointer FuseFileInfo}
    (found : w.find fi.target.fh = some file) (reads : file.Reads) :
    ∃ s', run (HostFiles.machine rules) 0 (handleRead path buf size offset fi) s w =
      some (replyTo (fun copied => copied.length) (w.files.preadAt file.inode size offset), s',
        { w with received := w.received ++
          receivedFrom buf (w.files.preadAt file.inode size offset) }) := by
  unfold handleRead
  simp only [Program.bind_eq]
  rw [run_andThen, run_logMsg, Option.bind_some]
  exact run_preadLogged found reads

theorem run_handleWrite {path : Bytes} {buf : Pointer Bytes} {size : Nat} {offset : Int}
    {fi : Pointer FuseFileInfo} (found : w.find fi.target.fh = some file) (writes : file.Writes) :
    ∃ s', run (HostFiles.machine rules) 0 (handleWrite path buf size offset fi) s w =
      some (replyTo (fun moved => (moved.1 : Int))
          (w.files.pwriteAt file.inode (buf.target.take size) offset), s',
        { w with files := (writtenBy w.files
            (w.files.pwriteAt file.inode (buf.target.take size) offset)) }) := by
  unfold handleWrite
  simp only [Program.bind_eq]
  rw [run_andThen, run_logMsg, Option.bind_some]
  exact run_pwriteLogged found writes

theorem run_handleRelease {path : Bytes} {fi : Pointer FuseFileInfo} :
    ∃ s', run (HostFiles.machine rules) 0 (handleRelease path fi) s w =
      some (0, s', { w with descriptors := closedTable w fi.target.fh }) := by
  unfold handleRelease
  simp only [Program.bind_eq, Program.pure_eq]
  rw [run_andThen, run_logMsg, Option.bind_some]
  exact run_close

/-- The files after a call by path. -/
def updatedBy (files : Files) : Except Errno Files → Files
  | .ok changed => changed
  | .error _ => files

/-- A handler of one call by path. -/
theorem run_loggedUpdate {c : HostCall} {next : c.Answer → Handler Int}
    {outcome : c.Answer → Except Errno Unit} {format func : String} {args : List Arg}
    (follows : ∀ answer, next answer = fromHost (fun _ => 0) (outcome answer))
    {result : Except Errno Files} {answer : c.Answer}
    (answered : HostFiles.machine rules w c = some (answer, (w.update result).2))
    (passed : outcome answer = (w.update result).1) :
    ∃ s', run (HostFiles.machine rules) 0 (loggedCall format args func (.call c next)) s w =
      some (replyTo (fun _ => 0) result, s', { w with files := updatedBy w.files result }) := by
  unfold loggedCall
  simp only [Program.bind_eq]
  rw [run_andThen, run_logMsg, Option.bind_some]
  obtain ⟨s', logged⟩ := @run_loggedHostCall rules s w Unit c next (fun _ => 0) outcome func id
    follows answer (fun _ _ => ⟨Int.le_refl 0, rfl⟩) rfl _ answered
  refine ⟨s', logged.trans ?_⟩
  rw [passed]
  cases result <;> rfl

/-- A branch of `mknod` that makes one call. -/
theorem run_creation {c : HostCall} {next : c.Answer → Handler Int}
    {outcome : c.Answer → Except Errno Unit} {func : String} {path : Bytes} {mode : Nat}
    (follows : ∀ answer, next answer = fromHost (fun _ => 0) (outcome answer)) {answer : c.Answer}
    (answered : HostFiles.machine rules w c =
      some (answer, (w.update (w.files.create rules path mode)).2))
    (passed : outcome answer = (w.update (w.files.create rules path mode)).1) :
    ∃ retstat s' table, run (HostFiles.machine rules) 0
        ((Program.call c next).andThen fun made => logSyscall func made 0) s w =
      some (retstat, s', { w with
        files := updatedBy w.files (w.files.create rules path mode)
        descriptors := table }) ∧ Retains w.descriptors table ∧ retstat ≠ -1 := by
  obtain ⟨s', logged⟩ := @run_loggedHostCall rules s w Unit c next (fun _ => 0) outcome func id
    follows answer (fun _ _ => ⟨Int.le_refl 0, rfl⟩) rfl _ answered
  rw [passed] at logged
  cases created : w.files.create rules path mode with
  | ok changed =>
      rw [created] at logged
      exact ⟨0, s', w.descriptors, logged, .refl _, by decide⟩
  | error e =>
      rw [created] at logged
      obtain rfl := Files.create_error created
      exact ⟨-17, s', w.descriptors, logged, .refl _, by decide⟩

/-- The branch of `mknod` for a regular file. -/
theorem run_regularFile {path : Bytes} {mode : Nat} :
    ∃ retstat s' table, run (HostFiles.machine rules) 0
        ((openPath path (oCreat ||| oExcl ||| oWronly) mode).andThen fun opened =>
          (logSyscall "open" opened 0).andThen fun retstat =>
            if 0 ≤ retstat then (close retstat).andThen fun closed => logSyscall "close" closed 0
            else .done retstat) s w =
      some (retstat, s', { w with
        files := updatedBy w.files (w.files.create rules path mode)
        descriptors := table }) ∧ Retains w.descriptors table ∧ retstat ≠ -1 := by
  cases created : w.files.create rules path mode with
  | ok changed =>
      have opened : w.files.openAt rules path (oCreat ||| oExcl ||| oWronly) mode =
          .ok (w.files.next, changed) := by rw [Files.openAt_exclusive, created]; rfl
      rw [run_openLogged opened, if_pos (Int.natCast_nonneg _)]
      let value : OpenFile := ⟨w.files.next, oCreat ||| oExcl ||| oWronly⟩
      let w₁ : HostFiles :=
        { w with files := changed, descriptors := (allocate value w.descriptors).2 }
      have answered : HostFiles.machine rules w₁ (.close (allocate value w.descriptors).1) =
          some (w₁.close (allocate value w.descriptors).1) := rfl
      unfold HostFiles.close at answered
      rw [show w₁.find (allocate value w.descriptors).1 = some value from find_allocated] at answered
      obtain ⟨s', logged⟩ := @run_loggedHostCall rules s w₁ Unit
        (.close (allocate value w.descriptors).1) _ (fun _ => 0) id "close" id (fun _ => rfl) _
        (fun _ _ => ⟨Int.le_refl 0, rfl⟩) rfl _ answered
      exact ⟨0, s', _, logged, retains_release_allocate value w.descriptors, by decide⟩
  | error e =>
      obtain rfl := Files.create_error created
      have answered : HostFiles.machine rules w
          (.openPath path (oCreat ||| oExcl ||| oWronly) mode) = some (.error .eexist, w) := by
        show some (w.open_ rules path (oCreat ||| oExcl ||| oWronly) mode) = _
        unfold HostFiles.open_
        rw [Files.openAt_exclusive, created]
        rfl
      obtain ⟨s', logged⟩ := @run_loggedHostCall rules s w Nat
        (.openPath path (oCreat ||| oExcl ||| oWronly) mode) _ (fun n => n) id "open" id
        (fun _ => rfl) _ (fun n _ => ⟨Int.natCast_nonneg n, rfl⟩) rfl _ answered
      rw [← Program.andThen_assoc, run_andThen]
      have refused := congrArg (fun reached => reached.bind fun result =>
        run (HostFiles.machine rules) 0
          (if 0 ≤ result.1 then (close result.1).andThen fun closed => logSyscall "close" closed 0
            else .done result.1) result.2.1 result.2.2) logged
      exact ⟨-17, s', w.descriptors, refused, .refl _, by decide⟩

/-- Every branch of `mknod` creates the inode or finds the path taken. -/
theorem run_mknodBranches {path : Bytes} {mode rdev : Nat} :
    ∃ retstat s' table, run (HostFiles.machine rules) 0 (mknodBranches path mode rdev) s w =
        some (retstat, s', { w with
          files := updatedBy w.files (w.files.create rules path mode)
          descriptors := table }) ∧ Retains w.descriptors table ∧ retstat ≠ -1 := by
  unfold mknodBranches
  split
  · exact run_regularFile
  · split
    · exact run_creation (fun _ => rfl) rfl rfl
    · exact run_creation (fun _ => rfl) rfl rfl

theorem run_nosqlFSMknod {path : Bytes} {mode rdev : Nat} :
    ∃ s' table, run (HostFiles.machine rules) 0 (nosqlFSMknod path mode rdev) s w =
      some (0, s', { w with
        files := updatedBy w.files (w.files.create rules path mode)
        descriptors := table }) ∧ Retains w.descriptors table := by
  obtain ⟨retstat, s', table, branched, retains, passes⟩ := @run_mknodBranches rules s w path mode rdev
  unfold nosqlFSMknod
  simp only [Program.bind_eq, Program.pure_eq]
  rw [run_andThen, run_logMsg, Option.bind_some, run_andThen, branched, Option.bind_some,
    if_neg passes]
  exact ⟨s', table, rfl, retains⟩

end Transfers

/-! ## Steps of the reference -/

section Reference

variable {rules : HostRules} {r : HandleHost} {handle : Nat} {path : Bytes} {file : OpenFile}
  {reply : Int}

/-- An open keeps its descriptor. -/
theorem step_open {fi : Pointer FuseFileInfo} {ino : Nat} {files : Files}
    (opened : r.host.files.openAt rules path fi.target.flags 0 = .ok (ino, files)) :
    ReferenceStep rules r (.openFile handle path fi, 0)
      ⟨{ r.host with
          files := files
          descriptors := (allocate ⟨ino, fi.target.flags⟩ r.host.descriptors).2 },
        Function.update r.handles handle
          (some (allocate ⟨ino, fi.target.flags⟩ r.host.descriptors).1)⟩ :=
  ⟨startThread, _, _, _, run_handleOpen_granted opened, rfl⟩

/-- The descriptor behind an open file. -/
theorem HandleHost.exists_handle (held : r.opened handle = some file) :
    ∃ fh : Nat, r.handles handle = some fh ∧ r.host.find fh = some file :=
  Option.bind_eq_some_iff.mp held

theorem HandleHost.find_of_opened {fh : Nat} (held : r.opened handle = some file)
    (known : r.handles handle = some fh) : r.host.find fh = some file := by
  rwa [HandleHost.opened, known, Option.bind_some] at held

/-- A read goes to the inode that was opened, whatever has become of the path. -/
theorem step_read (held : r.opened handle = some file) (reads : file.Reads) {buf size : Nat}
    {offset : Int} {fi : Pointer FuseFileInfo}
    (answers : replyTo (fun copied => copied.length)
      (r.host.files.preadAt file.inode size offset) = reply) :
    ReferenceStep rules r (.read handle path buf size offset fi, reply)
      ⟨{ r.host with received := r.host.received ++
          receivedFrom buf (r.host.files.preadAt file.inode size offset) }, r.handles⟩ := by
  obtain ⟨fh, known, found⟩ := HandleHost.exists_handle held
  obtain ⟨s', ran⟩ := @run_handleRead rules startThread r.host file path buf size offset
    (withHandle fi fh) found reads
  rw [answers] at ran
  exact ⟨startThread, s', fh, _, known, ran, rfl⟩

/-- So does a write. -/
theorem step_write (held : r.opened handle = some file) (writes : file.Writes)
    {buf : Pointer Bytes} {size : Nat} {offset : Int} {fi : Pointer FuseFileInfo}
    (answers : replyTo (fun moved => (moved.1 : Int))
      (r.host.files.pwriteAt file.inode (buf.target.take size) offset) = reply) :
    ReferenceStep rules r (.write handle path buf size offset fi, reply)
      ⟨{ r.host with files := (writtenBy r.host.files
          (r.host.files.pwriteAt file.inode (buf.target.take size) offset)) }, r.handles⟩ := by
  obtain ⟨fh, known, found⟩ := HandleHost.exists_handle held
  obtain ⟨s', ran⟩ := @run_handleWrite rules startThread r.host file path buf size offset
    (withHandle fi fh) found writes
  rw [answers] at ran
  exact ⟨startThread, s', fh, _, known, ran, rfl⟩

/-- A release forgets the descriptor. -/
theorem step_release (held : (r.opened handle).isSome = true) {fi : Pointer FuseFileInfo} :
    ∃ table, ReferenceStep rules r (.release handle path fi, 0)
      ⟨{ r.host with descriptors := table }, Function.update r.handles handle none⟩ := by
  obtain ⟨file, opened⟩ := Option.isSome_iff_exists.mp held
  obtain ⟨fh, known, _⟩ := HandleHost.exists_handle opened
  obtain ⟨s', ran⟩ := @run_handleRelease rules startThread r.host path (withHandle fi fh)
  exact ⟨_, startThread, s', fh, _, known, ran, rfl⟩

end Reference

/-! ## Step by step -/

section Steps

variable {rules : HostRules} {w : HostFiles} {r r' : HandleHost}

/-- A step of the reference within both conditions. -/
def CurrentStep (rules : HostRules) (r : HandleHost) (served : Served) (r' : HandleHost) : Prop :=
  Allowed rules r served.1 ∧ Current rules r served.1 ∧ ReferenceStep rules r served r'

/-- A handler that changes files by one call does the same in both systems. -/
theorem serves_update {operation : Operation} {reply : Int} (result : Files → Except Errno Files)
    (served : ∀ s (w : HostFiles), ∃ s', run (HostFiles.machine rules) 0
      (nosqlFSOper operation.request) s w = some (replyTo (fun _ => 0) (result w.files), s',
        { w with files := updatedBy w.files (result w.files) }))
    (agree : Agree w r.host) {first after : ThreadLocal} {w' : HostFiles}
    (ran : run (HostFiles.machine rules) 0 (nosqlFSOper operation.request) first r.host =
      some (reply, after, w')) (s : ThreadLocal) :
    ∃ s' w'', run (HostFiles.machine rules) 0 (nosqlFSOper operation.request) s w =
      some (reply, s', w'') ∧ Agree w'' w' := by
  obtain ⟨_, other⟩ := served first r.host
  obtain ⟨s', mine⟩ := served s w
  rw [other] at ran
  cases ran
  rw [agree.files] at mine
  exact ⟨s', _, mine, rfl, agree.received⟩

/-- What the reference does in a current step, the program does from the same files, with
the same reply. -/
theorem serves_alike {served : Served} (agree : Agree w r.host)
    (step : CurrentStep rules r served r') (s : ThreadLocal) :
    ∃ s' w', run (HostFiles.machine rules) 0 (nosqlFSOper served.1.request) s w =
      some (served.2, s', w') ∧ Agree w' r'.host := by
  obtain ⟨operation, reply⟩ := served
  obtain ⟨allowed, current, stepped⟩ := step
  cases operation with
  | openFile handle path fi =>
      obtain ⟨_, ⟨ino, files⟩, opened⟩ := allowed
      obtain ⟨first, after, fh, w', ran, rfl⟩ := stepped
      rw [run_handleOpen_granted opened] at ran
      cases ran
      rw [← agree.files] at opened
      obtain ⟨s', table, granted⟩ := @run_nosqlFSOpen_granted rules s w path fi ino files opened
      exact ⟨s', _, granted, rfl, agree.received⟩
  | read handle path buf size offset fi =>
      obtain ⟨file, held, reads⟩ := allowed
      obtain ⟨named, admitted⟩ := current file held
      obtain ⟨first, after, fh, w', known, ran, rfl⟩ := stepped
      have found := HandleHost.find_of_opened held known
      obtain ⟨_, other⟩ := @run_handleRead rules first r.host file path buf size offset
        (withHandle fi fh) found reads
      rw [other] at ran
      cases ran
      rw [← agree.files] at named admitted ⊢
      obtain ⟨s', table, mine⟩ := @run_nosqlFSRead_reopened rules s w path buf size _ offset fi
        named admitted
      exact ⟨s', _, mine, rfl, congrArg (· ++ _) agree.received⟩
  | write handle path buf size offset fi =>
      obtain ⟨file, held, writes⟩ := allowed
      obtain ⟨named, admitted⟩ := current file held
      obtain ⟨first, after, fh, w', known, ran, rfl⟩ := stepped
      have found := HandleHost.find_of_opened held known
      obtain ⟨_, other⟩ := @run_handleWrite rules first r.host file path buf size offset
        (withHandle fi fh) found writes
      rw [other] at ran
      cases ran
      rw [← agree.files] at named admitted ⊢
      obtain ⟨s', table, mine⟩ := @run_nosqlFSWrite_reopened rules s w path buf size _ offset fi
        named admitted
      exact ⟨s', _, mine, rfl, agree.received⟩
  | release handle path fi =>
      obtain ⟨first, after, fh, w', known, ran, rfl⟩ := stepped
      obtain ⟨_, other⟩ := @run_handleRelease rules first r.host path (withHandle fi fh)
      rw [other] at ran
      cases ran
      exact ⟨s, w, rfl, agree.files, agree.received⟩
  | chmod path mode =>
      obtain ⟨first, after, w', ran, rfl⟩ := stepped
      exact serves_update (fun files => files.chmodAt path mode)
        (fun s w => run_loggedUpdate (fun _ => rfl) rfl rfl) agree ran s
  | truncate path size =>
      obtain ⟨first, after, w', ran, rfl⟩ := stepped
      exact serves_update (fun files => files.truncateAt rules path size)
        (fun s w => run_loggedUpdate (fun _ => rfl) rfl rfl) agree ran s
  | unlink path =>
      obtain ⟨first, after, w', ran, rfl⟩ := stepped
      exact serves_update (fun files => files.unlinkAt path)
        (fun s w => run_loggedUpdate (fun _ => rfl) rfl rfl) agree ran s
  | rename from_ to_ flags =>
      obtain ⟨first, after, w', ran, rfl⟩ := stepped
      exact serves_update (fun files => files.renameAt from_ to_)
        (fun s w => run_loggedUpdate (fun _ => rfl) rfl rfl) agree ran s
  | mknod path mode rdev =>
      obtain ⟨first, after, w', ran, rfl⟩ := stepped
      obtain ⟨_, _, other, _⟩ := @run_nosqlFSMknod rules first r.host path mode rdev
      have same : run (HostFiles.machine rules) 0 (nosqlFSMknod path mode rdev) first r.host =
        some (reply, after, w') := ran
      rw [other] at same
      cases same
      obtain ⟨s', table, mine, _⟩ := @run_nosqlFSMknod rules s w path mode rdev
      rw [agree.files] at mine
      exact ⟨s', _, mine, rfl, agree.received⟩

/-- A run of the reference in current steps is a run of the program, and the only one of
the same operations. -/
theorem follows_alike {entries : List Served} (agree : Agree w r.host)
    (reference : Follows (CurrentStep rules) r entries r') :
    (∃ w', Follows (ProgramStep rules) w entries w' ∧ Agree w' r'.host) ∧
      ∀ entries' w', entries'.map Prod.fst = entries.map Prod.fst →
        Follows (ProgramStep rules) w entries' w' → entries' = entries ∧ Agree w' r'.host := by
  induction reference generalizing w with
  | nil r =>
      refine ⟨⟨w, .nil w, agree⟩, fun entries' w' same follows => ?_⟩
      obtain rfl := List.map_eq_nil_iff.mp same
      obtain rfl := follows_nil_iff.mp follows
      exact ⟨rfl, agree⟩
  | @cons r between r' served t step rest ih =>
      refine ⟨?_, fun entries' w' same follows => ?_⟩
      · obtain ⟨s', middle, ran, agrees⟩ := serves_alike agree step startThread
        obtain ⟨⟨w', later, last⟩, _⟩ := ih agrees
        exact ⟨w', .cons ⟨startThread, s', ran⟩ later, last⟩
      · obtain ⟨⟨operation, reply⟩, others, rfl, head, tail⟩ := List.map_eq_cons_iff.mp same
        obtain rfl : operation = served.1 := head
        obtain ⟨middle, ⟨s, s', ran⟩, later⟩ := follows_cons_iff.mp follows
        obtain ⟨_, reached, expected, agrees⟩ := serves_alike agree step s
        obtain ⟨replies, registers⟩ := Prod.mk.inj (Option.some.inj (expected.symm.trans ran))
        obtain rfl : served.2 = reply := replies
        obtain rfl : reached = middle := (Prod.mk.inj registers).2
        obtain ⟨rfl, last⟩ := (ih agrees).2 others w' tail later
        exact ⟨rfl, last⟩

end Steps

/-! ## Every run -/

/-- In every run in which each read and write finds its path still naming the inode that
was opened, with permission to open it again, the program gives the replies of the
reference, reads the same bytes and leaves the same files; and it has such a run. -/
theorem stateless_refines {rules : HostRules} {w : HostFiles} {entries : List Served}
    {r' : HandleHost} (reference : Follows (CurrentStep rules) ⟨w, fun _ => none⟩ entries r') :
    (∃ w', Follows (ProgramStep rules) w entries w' ∧ Agree w' r'.host) ∧
      ∀ entries' w', entries'.map Prod.fst = entries.map Prod.fst →
        Follows (ProgramStep rules) w entries' w' → entries' = entries ∧ Agree w' r'.host :=
  follows_alike ⟨rfl, rfl⟩ reference

/-! ## Two runs -/

/-- The process owns its files. -/
def ownerRules : HostRules where
  admits := fun permissions flags =>
    (flags &&& oAccmode = oWronly || permissions &&& 256 ≠ 0) &&
      (flags &&& oAccmode = oRdonly || permissions &&& 128 ≠ 0)
  granted := fun mode => mode &&& 493
  time := 0
  localtime := fun _ => newYear
  strerror := fun _ => []

/-- One file `/a` that its owner may read and write. -/
def oneFile : HostFiles :=
  ⟨⟨Space.insert (fun _ => none) [ascii "a"] 0, fun _ => ⟨420, ascii "old"⟩, 1⟩, [], []⟩

/-- File information of an open for reading and writing. -/
def readWrite : Pointer FuseFileInfo := ⟨16, ⟨oRdwr, 0, 0, 0, 0, 0⟩⟩

def hi : Pointer Bytes := ⟨32, [104, 105]⟩

/-- One client writes to a file and another one reads it, after its mode and its name have been
changed under both of them. -/
def quietEntries : List Served :=
  [(.openFile 0 (ascii "/a") readWrite, 0), (.openFile 1 (ascii "/a") readWrite, 0),
    (.chmod (ascii "/a") 384, 0), (.rename (ascii "/a") (ascii "/b") 0, 0),
    (.write 0 (ascii "/b") hi 2 0 readWrite, 2), (.read 1 (ascii "/b") 64 8 0 readWrite, 3),
    (.release 0 (ascii "/b") readWrite, 0)]

/-- One more step in front of a run. -/
theorem exists_follows_cons {σ ε : Type} {step : σ → ε → σ → Prop} {first middle : σ} {label : ε}
    {t : List ε} (head : step first label middle) (rest : ∃ last, Follows step middle t last) :
    ∃ last, Follows step first (label :: t) last := rest.imp fun _ follows => .cons head follows

theorem quiet_follows :
    ∃ r', Follows (CurrentStep ownerRules) ⟨oneFile, fun _ => none⟩ quietEntries r' := by
  refine exists_follows_cons ⟨⟨rfl, ⟨0, oneFile.files⟩, rfl⟩, trivial, step_open rfl⟩ ?_
  refine exists_follows_cons ⟨⟨rfl, ⟨0, oneFile.files⟩, rfl⟩, trivial, step_open rfl⟩ ?_
  refine exists_follows_cons ⟨trivial, trivial, startThread, _, _, rfl, rfl⟩ ?_
  refine exists_follows_cons ⟨trivial, trivial, startThread, _, _, rfl, rfl⟩ ?_
  refine exists_follows_cons
    ⟨⟨⟨0, oRdwr⟩, rfl, by decide⟩, ?_, step_write rfl (by decide) (by decide)⟩ ?_
  · rintro file held
    cases held
    exact ⟨rfl, rfl⟩
  refine exists_follows_cons
    ⟨⟨⟨0, oRdwr⟩, rfl, by decide⟩, ?_, step_read rfl (by decide) (by decide)⟩ ?_
  · rintro file held
    cases held
    exact ⟨rfl, rfl⟩
  have released : ∀ r : HandleHost, (r.opened 0).isSome = true →
      ∃ r', Follows (CurrentStep ownerRules) r [(.release 0 (ascii "/b") readWrite, 0)] r' := by
    intro r held
    obtain ⟨table, stepped⟩ := @step_release ownerRules r 0 (ascii "/b") held readWrite
    exact exists_follows_cons ⟨held, trivial, stepped⟩ ⟨_, .nil _⟩
  exact released _ rfl

/-- So the program replies the same. -/
theorem quiet_refines :
    ∃ w', Follows (ProgramStep ownerRules) oneFile quietEntries w' := by
  obtain ⟨r', reference⟩ := quiet_follows
  obtain ⟨⟨w', follows, _⟩, _⟩ := stateless_refines reference
  exact ⟨w', follows⟩

/-- A step of the reference within the access modes alone. -/
def AllowedStep (rules : HostRules) (r : HandleHost) (served : Served) (r' : HandleHost) : Prop :=
  Allowed rules r served.1 ∧ ReferenceStep rules r served r'

/-- The file is removed and made again while it is open. -/
def replaced : List Operation :=
  [.openFile 0 (ascii "/a") readWrite, .unlink (ascii "/a"), .mknod (ascii "/a") (sIfreg ||| 420) 0,
    .write 0 (ascii "/a") hi 2 0 readWrite, .read 0 (ascii "/a") 64 8 0 readWrite]

theorem replaced_reference :
    ∃ r', Follows (AllowedStep ownerRules) ⟨oneFile, fun _ => none⟩
      (replaced.zip [0, 0, 0, 2, 3]) r' := by
  refine exists_follows_cons ⟨⟨rfl, ⟨0, oneFile.files⟩, rfl⟩, step_open rfl⟩ ?_
  refine exists_follows_cons ⟨trivial, startThread, _, _, rfl, rfl⟩ ?_
  refine exists_follows_cons ⟨trivial, startThread, _, _, rfl, rfl⟩ ?_
  refine exists_follows_cons ⟨⟨⟨0, oRdwr⟩, rfl, by decide⟩, step_write rfl (by decide) (by decide)⟩ ?_
  exact exists_follows_cons
    ⟨⟨⟨0, oRdwr⟩, rfl, by decide⟩, step_read rfl (by decide) (by decide)⟩ ⟨_, .nil _⟩

/-- The program writes to the inode that is there now, and reads it back. -/
theorem replaced_transfers {w : HostFiles} (named : w.files.inodeAt (ascii "/a") = some 1)
    (empty : w.files.inodes 1 = ⟨420, []⟩) :
    ∃ w', Follows (ProgramStep ownerRules) w
      [(.write 0 (ascii "/a") hi 2 0 readWrite, 2), (.read 0 (ascii "/a") 64 8 0 readWrite, 2)] w' := by
  have admits : ∀ flags, ownerRules.admits 420 flags = true := by
    intro flags
    simp [ownerRules]
  let changed : Files := w.files.setContent 1 [104, 105]
  have writes : w.files.pwriteAt 1 [104, 105] 0 = .ok (2, changed) := by
    unfold Files.pwriteAt
    rw [empty]
    rfl
  have holds : changed.inodes 1 = ⟨420, [104, 105]⟩ := by
    show Function.update w.files.inodes 1 { w.files.inodes 1 with content := [104, 105] } 1 = _
    rw [Function.update_self, empty]
  have reads : changed.preadAt 1 8 0 = .ok [104, 105] := by
    unfold Files.preadAt
    rw [holds]
    rfl
  obtain ⟨s₁, table₁, written⟩ := @run_nosqlFSWrite_reopened ownerRules startThread w (ascii "/a")
    hi 2 1 0 readWrite named (by rw [empty]; exact admits _)
  rw [show hi.target.take 2 = [104, 105] from rfl, writes] at written
  refine exists_follows_cons ⟨startThread, s₁, written⟩ ?_
  obtain ⟨s₂, table₂, copied⟩ := @run_nosqlFSRead_reopened ownerRules startThread
    { w with files := changed, descriptors := table₁ } (ascii "/a") 64 8 1 0 readWrite named
    (by rw [holds]; exact admits _)
  rw [reads] at copied
  exact exists_follows_cons ⟨startThread, s₂, copied⟩ ⟨_, .nil _⟩

theorem replaced_program :
    ∃ w', Follows (ProgramStep ownerRules) oneFile (replaced.zip [0, 0, 0, 2, 2]) w' := by
  refine exists_follows_cons ⟨startThread, _, rfl⟩ ?_
  refine exists_follows_cons ⟨startThread, _, rfl⟩ ?_
  refine exists_follows_cons ⟨startThread, _, rfl⟩ ?_
  exact replaced_transfers rfl rfl

/-- Within the access modes alone, the two systems part: the program writes to the file
that took the place of the one that was opened. -/
theorem stateless_diverges :
    ¬ ∀ (rules : HostRules) (w : HostFiles) (entries : List Served) (r' : HandleHost),
      Follows (AllowedStep rules) ⟨w, fun _ => none⟩ entries r' →
      ∀ (entries' : List Served) (w' : HostFiles), entries'.map Prod.fst = entries.map Prod.fst →
        Follows (ProgramStep rules) w entries' w' → entries' = entries ∧ Agree w' r'.host := by
  intro claim
  obtain ⟨r', reference⟩ := replaced_reference
  obtain ⟨w', program⟩ := replaced_program
  have same := (claim _ _ _ _ reference (replaced.zip [0, 0, 0, 2, 2]) w' (by decide) program).1
  exact absurd same (by decide)

end NosqlFS
