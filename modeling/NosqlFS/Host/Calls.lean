import NosqlFS.Host.Types
import NosqlFS.Interaction.Obligation

/-!
# Host calls

Everything the program asks of its surroundings, with the possible answers: the
system calls, the stdio and time functions behind the log, libfuse's filler, and
stores into a caller's buffer.  `errno` and the FUSE context are thread-local.
-/

namespace NosqlFS

open Interaction Text

/-- The calls that leave the program. -/
inductive HostCall where
  | time
  | localtime (timep : Int)
  | strftime (tm : Tm)
  | fputs (stream : Nat)
  | vfprintf (stream : Nat) (format : String) (args : List Arg)
  | strerror (errnum : Int)
  | lstat (path : Bytes) (stbuf : Nat)
  | access (path : Bytes) (mask : Nat)
  | opendir (path : Bytes)
  | readdir (dp : Nat)
  | closedir (dp : Nat)
  | filler (buf : Nat) (name : Bytes) (stbuf : Stat) (off : Int) (flags : Nat)
  | readlink (path : Bytes) (link : Nat) (size : Nat)
  | store (address : Nat) (byte : UInt8)
  | openPath (path : Bytes) (flags : Nat) (mode : Nat)
  | close (fd : Int)
  | mkfifo (path : Bytes) (mode : Nat)
  | mknod (path : Bytes) (mode : Nat) (rdev : Nat)
  | mkdir (path : Bytes) (mode : Nat)
  | unlink (path : Bytes)
  | rmdir (path : Bytes)
  | symlink (target : Bytes) (path : Bytes)
  | rename (from_ to_ : Bytes)
  | link (from_ to_ : Bytes)
  | chmod (path : Bytes) (mode : Nat)
  | lchown (path : Bytes) (uid : Nat) (gid : Nat)
  | truncate (path : Bytes) (size : Int)
  | pread (fd : Int) (buf : Nat) (size : Nat) (offset : Int)
  | pwrite (fd : Int) (buf : Pointer Bytes) (size : Nat) (offset : Int)
  | statvfs (path : Bytes) (stbuf : Nat)
  | malloc (size : Nat)
  | realpath (path : Bytes)
  | gmtime (timep : Int)
  | fopen (path : Bytes) (mode : String)
  deriving DecidableEq, Repr

/-- The host's `readdir` returns an entry, or NULL at the end or on an error. -/
inductive ReaddirResult where
  | entry (de : Dirent)
  | finish
  | failed (e : Errno)
  deriving DecidableEq, Repr

/-- The `int` a filler returned and what it did to `errno`. -/
structure FillerResult where
  result : Int
  effect : ErrnoEffect
  deriving DecidableEq, Repr

/-- Answers.  The `errno` effect of the four stdio and time calls that make up one
log message is recorded with the last of them; nothing reads `errno` in between. -/
@[reducible]
def HostCall.Answer : HostCall → Type
  | .time => Int
  | .localtime _ => Tm
  | .strftime _ => Unit
  | .fputs _ => Unit
  | .vfprintf .. => ErrnoEffect
  | .strerror _ => Bytes
  | .lstat .. => Except Errno Stat
  | .access .. => Except Errno Unit
  | .opendir _ => Except Errno Nat
  | .readdir _ => ReaddirResult
  | .closedir _ => Except Errno Unit
  | .filler .. => FillerResult
  | .readlink .. => Except Errno Bytes
  | .store .. => Unit
  | .openPath .. => Except Errno Nat
  | .close _ => Except Errno Unit
  | .mkfifo .. => Except Errno Unit
  | .mknod .. => Except Errno Unit
  | .mkdir .. => Except Errno Unit
  | .unlink _ => Except Errno Unit
  | .rmdir _ => Except Errno Unit
  | .symlink .. => Except Errno Unit
  | .rename .. => Except Errno Unit
  | .link .. => Except Errno Unit
  | .chmod .. => Except Errno Unit
  | .lchown .. => Except Errno Unit
  | .truncate .. => Except Errno Unit
  | .pread .. => Except Errno Bytes
  | .pwrite .. => Except Errno Nat
  | .statvfs .. => Except Errno Statvfs
  | .malloc _ => Option Nat
  | .realpath _ => Except Errno Bytes
  | .gmtime _ => Tm
  | .fopen .. => Except Errno Nat

/-- The registers of one thread. -/
structure ThreadLocal where
  errno : Int
  context : Pointer FuseContext
  deriving DecidableEq, Repr

abbrev Handler : Type → Type 1 := Program HostCall HostCall.Answer ThreadLocal

abbrev HostEvent : Type := Event HostCall HostCall.Answer

abbrev HostTrace : Type := Trace HostCall HostCall.Answer

/-! ## Thread-local state -/

def getErrno : Handler Int := .read fun s => .done s.errno

def setErrno (value : Int) : Handler Unit :=
  .read fun s => .write { s with errno := value } (.done ())

def fuseGetContext : Handler (Pointer FuseContext) := .read fun s => .done s.context

/-- The macro `nosqlFS_Data`. -/
def nosqlFSData : Handler (Pointer NosqlFSState) := do
  let context ← fuseGetContext
  return context.target.privateData

def applyEffect (effect : ErrnoEffect) : Handler Unit :=
  .read fun s => .write { s with errno := effect.apply s.errno } (.done ())

/-- The C convention: a value on success, otherwise `-1` with `errno` set. -/
def fromHost {α : Type} (value : α → Int) : Except Errno α → Handler Int
  | .ok result => pure (value result)
  | .error e => do
      setErrno e.code
      return -1

/-- Conversion of a 64-bit result to `int`. -/
def toInt (n : Int) : Int := Int.bmod n (2 ^ 32)

/-! ## The calls as the program writes them -/

def time : Handler Int := .call .time .done

def localtime (timep : Int) : Handler Tm := .call (.localtime timep) .done

def strftime (tm : Tm) : Handler Unit := .call (.strftime tm) .done

def fputs (stream : Nat) : Handler Unit := .call (.fputs stream) .done

def vfprintf (stream : Nat) (format : String) (args : List Arg) : Handler Unit :=
  .call (.vfprintf stream format args) applyEffect

def strerror (errnum : Int) : Handler Bytes := .call (.strerror errnum) .done

def lstat (path : Bytes) (stbuf : Nat) : Handler Int :=
  .call (.lstat path stbuf) (fromHost fun _ => 0)

def access (path : Bytes) (mask : Nat) : Handler Int :=
  .call (.access path mask) (fromHost fun _ => 0)

/-- NULL is `none`. -/
def opendir (path : Bytes) : Handler (Option Nat) :=
  .call (.opendir path) fun
    | .ok dp => pure (some dp)
    | .error e => do
        setErrno e.code
        return none

def readdir (dp : Nat) : Handler (Option Dirent) :=
  .call (.readdir dp) fun
    | .entry de => pure (some de)
    | .finish => pure none
    | .failed e => do
        setErrno e.code
        return none

def closedir (dp : Nat) : Handler Int := .call (.closedir dp) (fromHost fun _ => 0)

def filler (buf : Nat) (name : Bytes) (stbuf : Stat) (off : Int) (flags : Nat) : Handler Int :=
  .call (.filler buf name stbuf off flags) fun answer => do
    applyEffect answer.effect
    return answer.result

def readlink (path : Bytes) (link : Nat) (size : Nat) : Handler Int :=
  .call (.readlink path link size) (fromHost fun copied => copied.length)

def store (address : Nat) (byte : UInt8) : Handler Unit := .call (.store address byte) .done

def openPath (path : Bytes) (flags : Nat) (mode : Nat) : Handler Int :=
  .call (.openPath path flags mode) (fromHost fun fd => fd)

def close (fd : Int) : Handler Int := .call (.close fd) (fromHost fun _ => 0)

def mkfifo (path : Bytes) (mode : Nat) : Handler Int :=
  .call (.mkfifo path mode) (fromHost fun _ => 0)

def mknod (path : Bytes) (mode rdev : Nat) : Handler Int :=
  .call (.mknod path mode rdev) (fromHost fun _ => 0)

def mkdir (path : Bytes) (mode : Nat) : Handler Int :=
  .call (.mkdir path mode) (fromHost fun _ => 0)

def unlink (path : Bytes) : Handler Int := .call (.unlink path) (fromHost fun _ => 0)

def rmdir (path : Bytes) : Handler Int := .call (.rmdir path) (fromHost fun _ => 0)

def symlink (target path : Bytes) : Handler Int :=
  .call (.symlink target path) (fromHost fun _ => 0)

def rename (from_ to_ : Bytes) : Handler Int := .call (.rename from_ to_) (fromHost fun _ => 0)

def link (from_ to_ : Bytes) : Handler Int := .call (.link from_ to_) (fromHost fun _ => 0)

def chmod (path : Bytes) (mode : Nat) : Handler Int :=
  .call (.chmod path mode) (fromHost fun _ => 0)

def lchown (path : Bytes) (uid gid : Nat) : Handler Int :=
  .call (.lchown path uid gid) (fromHost fun _ => 0)

def truncate (path : Bytes) (size : Int) : Handler Int :=
  .call (.truncate path size) (fromHost fun _ => 0)

def pread (fd : Int) (buf : Nat) (size : Nat) (offset : Int) : Handler Int :=
  .call (.pread fd buf size offset) (fromHost fun copied => copied.length)

def pwrite (fd : Int) (buf : Pointer Bytes) (size : Nat) (offset : Int) : Handler Int :=
  .call (.pwrite fd buf size offset) (fromHost fun written => written)

def statvfs (path : Bytes) (stbuf : Nat) : Handler Int :=
  .call (.statvfs path stbuf) (fromHost fun _ => 0)

def malloc (size : Nat) : Handler (Option Nat) := .call (.malloc size) .done

/-- `realpath(path, NULL)`; NULL is `none`. -/
def realpath (path : Bytes) : Handler (Option Bytes) :=
  .call (.realpath path) fun
    | .ok resolved => pure (some resolved)
    | .error e => do
        setErrno e.code
        return none

def gmtime (timep : Int) : Handler Tm := .call (.gmtime timep) .done

def fopen (path : Bytes) (mode : String) : Handler (Option Nat) :=
  .call (.fopen path mode) fun
    | .ok stream => pure (some stream)
    | .error e => do
        setErrno e.code
        return none

end NosqlFS
