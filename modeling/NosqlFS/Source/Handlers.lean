import NosqlFS.Source.Log

/-!
# The handlers

The functions of `nosqlFS.c` that libfuse calls.  Eleven of them log their
arguments, make one system call on them and pass its result through `log_syscall`;
they are `loggedCall` at the values of the source.
-/

namespace NosqlFS

open Interaction Text

/-- Log the request, make one system call, log and translate its result. -/
def loggedCall (format : String) (args : List Arg) (func : String) (syscall : Handler Int) :
    Handler Int := do
  logMsg format args
  let retstat ← syscall
  logSyscall func retstat 0

/-! ## Attributes -/

def nosqlFSGetattr (path : Bytes) (stbuf : Nat) : Handler Int :=
  loggedCall "nosqlFS_getattr(char * path = %s, struct stat * stbuf = %08x)\n"
    [.str path, .int stbuf] "lstat" (lstat path stbuf)

/-- The one handler that does not log. -/
def nosqlFSAccess (path : Bytes) (mask : Nat) : Handler Int := do
  let result ← access path mask
  if result < 0 then do
    let errno ← getErrno
    return -errno
  else
    return 0

/-! ## Directories -/

/-- The attributes handed to the filler for one entry. -/
def direntStat (de : Dirent) : Stat :=
  { Stat.zero with stIno := de.dIno, stMode := de.dType.toNat <<< 12 }

/-- One pass of the `while` loop of `nosqlFS_readdir`; `false` leaves the loop. -/
def readdirPass (dp buf : Nat) : Handler Bool := do
  match ← readdir dp with
  | none => return false
  | some de => do
      logMsg "calling filler with name %s\n" [.str de.dName]
      let refused ← filler buf de.dName (direntStat de) 0 0
      return refused = 0

def nosqlFSReaddir (path : Bytes) (buf fillerAddress : Nat) (offset : Int)
    (fi : Pointer FuseFileInfo) (_flags : Nat) : Handler Int := do
  logMsg "nosqlFS_opendir(path = \"%s\", fuse_file_info = 0x%08x)\n" [.str path, .int fi.address]
  match ← opendir path with
  | none => logError "nosqlFS_opendir"
  | some dp => do
      logMsg "nosqlFS_readdir(path = \"%s\", buf = 0x%08x, fuse_fill_dir_t = 0x%08x, offset = %lld, fi = 0x%08x)\n"
        [.str path, .int buf, .int fillerAddress, .int offset, .int fi.address]
      .loop (readdirPass dp buf) do
        let _ ← closedir dp
        return 0

/-! ## Names -/

/-- The size argument is logged from `link`, the argument in its place. -/
def nosqlFSReadlink (path : Bytes) (link size : Nat) : Handler Int := do
  logMsg "nosqlFS_readlink(path = \"%s\", link = \"S\", size = %d)\n"
    [.str path, .int link, .str path]
  let copied ← readlink path link ((size + (2 ^ 64 - 1)) % 2 ^ 64)
  let retstat ← logSyscall "readlink" (toInt copied) 0
  if 0 < retstat then do
    store (link + retstat.toNat) 0
    return 0
  else
    return retstat

/-- The three branches of `nosqlFS_mknod`; their result is `retstat` before the final
test.  The function name `mkfifio` is spelled as in the source. -/
def mknodBranches (path : Bytes) (mode rdev : Nat) : Handler Int :=
  if sIsreg mode then do
    let opened ← openPath path (oCreat ||| oExcl ||| oWronly) mode
    let retstat ← logSyscall "open" opened 0
    if 0 ≤ retstat then do
      let closed ← close retstat
      logSyscall "close" closed 0
    else
      return retstat
  else if sIsfifo mode then do
    let made ← mkfifo path mode
    logSyscall "mkfifio" made 0
  else do
    let made ← mknod path mode rdev
    logSyscall "mknod" made 0

def nosqlFSMknod (path : Bytes) (mode rdev : Nat) : Handler Int := do
  logMsg "nosqlFS_mknod(path = \"%s\", mode = 0%3o, dev = %lld)\n"
    [.str path, .int mode, .int rdev]
  let retstat ← mknodBranches path mode rdev
  if retstat = -1 then do
    let errno ← getErrno
    return -errno
  else
    return 0

def nosqlFSMkdir (path : Bytes) (mode : Nat) : Handler Int :=
  loggedCall "nosqlFS_mkdir(path = \"%s\", mode = 0%3o)\n" [.str path, .int mode]
    "mkdir" (mkdir path mode)

def nosqlFSUnlink (path : Bytes) : Handler Int :=
  loggedCall "nosqlFS_unlink(path = \"%s\")\n" [.str path] "unlink" (unlink path)

def nosqlFSRmdir (path : Bytes) : Handler Int :=
  loggedCall "nosqlFS_rmdir(path = \"%s\")\n" [.str path] "rmdir" (rmdir path)

def nosqlFSSymlink (from_ to_ : Bytes) : Handler Int :=
  loggedCall "nosqlFS_symlink(from = \"%s\", to = \"%s\")\n" [.str from_, .str to_]
    "symlink" (symlink from_ to_)

def nosqlFSRename (from_ to_ : Bytes) (flags : Nat) : Handler Int :=
  loggedCall "nosqlFS_rename(from = \"%s\", to = \"%s\", flags = %u)\n"
    [.str from_, .str to_, .int flags] "rename" (rename from_ to_)

def nosqlFSLink (from_ to_ : Bytes) : Handler Int :=
  loggedCall "nosqlFS_link(from = \"%s\", to = \"%s\")\n" [.str from_, .str to_]
    "link" (link from_ to_)

def nosqlFSChmod (path : Bytes) (mode : Nat) : Handler Int :=
  loggedCall "nosqlFS_chmod(path = \"%s\", mode = 0%3o)\n" [.str path, .int mode]
    "chmod" (chmod path mode)

def nosqlFSChown (path : Bytes) (uid gid : Nat) : Handler Int :=
  loggedCall "nosqlFS_chown(path = \"%s\", uid = %d, gid = %d)\n"
    [.str path, .int uid, .int gid] "lchown" (lchown path uid gid)

def nosqlFSTruncate (path : Bytes) (size : Int) : Handler Int :=
  loggedCall "nosqlFS_truncate(path = \"%s\", size = %lld)\n" [.str path, .int size]
    "truncate" (truncate path size)

/-! ## Files -/

def nosqlFSOpen (path : Bytes) (fi : Pointer FuseFileInfo) : Handler Int := do
  logMsg "nosqlFS_open(path = \"%s\", fuse_file_info = 0x%08x)\n" [.str path, .int fi.address]
  let opened ← openPath path fi.target.flags 0
  let retstat ← logSyscall "open" opened 0
  logFi fi
  if retstat = -1 then do
    let errno ← getErrno
    return -errno
  else do
    let _ ← close retstat
    return 0

def nosqlFSRead (path : Bytes) (buf size : Nat) (offset : Int) (fi : Pointer FuseFileInfo) :
    Handler Int := do
  let opened ← openPath path oRdonly 0
  let fd ← logSyscall "open" opened 0
  if fd = -1 then do
    let errno ← getErrno
    return -errno
  else do
    logMsg "nosqlFS_read(path = \"%s\", buf = 0x%08x, size = %d, offset = %lld, fuse_file_info = 0x%08x)\n"
      [.str path, .int buf, .int size, .int offset, .int fi.address]
    let copied ← pread fd buf size offset
    let retstat ← logSyscall "pread" (toInt copied) 0
    let _ ← close fd
    return retstat

def nosqlFSWrite (path : Bytes) (buf : Pointer Bytes) (size : Nat) (offset : Int)
    (fi : Pointer FuseFileInfo) : Handler Int := do
  logMsg "nosqlFS_write(path = \"%s\", buf = 0x%08x, size = %d, offset = %lld, fuse_file_info = 0x%08x)\n"
    [.str path, .int buf.address, .int size, .int offset, .int fi.address]
  let opened ← openPath path oWronly 0
  let fd ← logSyscall "open" opened 0
  if fd = -1 then do
    let errno ← getErrno
    return -errno
  else do
    let written ← pwrite fd buf size offset
    let retstat ← logSyscall "pwrite" (toInt written) 0
    let _ ← close fd
    return retstat

def nosqlFSStatfs (path : Bytes) (stbuf : Nat) : Handler Int :=
  loggedCall "nosqlFS_statfs(path = \"%s\", statvfs = 0x%08x)\n" [.str path, .int stbuf]
    "statvfs" (statvfs path stbuf)

def nosqlFSRelease (path : Bytes) (fi : Pointer FuseFileInfo) : Handler Int := do
  logMsg "nosqlFS_release(path = \"%s\", fuse_file_info = 0x%08x)\n" [.str path, .int fi.address]
  return 0

/-- The result becomes the private data of every later request. -/
def nosqlFSInit (conn : Pointer FuseConnInfo) : Handler (Pointer NosqlFSState) := do
  logMsg "nosqlFS_init()\n" []
  logConn conn
  let context ← fuseGetContext
  logFuseContext context
  nosqlFSData

end NosqlFS
