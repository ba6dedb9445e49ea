import NosqlFS.Source.Handlers

/-!
# The operation table and `main`

`Request` lists the operations registered in `nosqlFS_oper` with their arguments.
`main` prepares the private data and the argument vector for `fuse_main`, which
serves requests after `nosqlFS_init`.
-/

namespace NosqlFS

open Interaction Text

/-- A request that libfuse hands to the operation table. -/
inductive Request where
  | getattr (path : Bytes) (stbuf : Nat)
  | access (path : Bytes) (mask : Nat)
  | readlink (path : Bytes) (link size : Nat)
  | readdir (path : Bytes) (buf filler : Nat) (offset : Int) (fi : Pointer FuseFileInfo)
      (flags : Nat)
  | mknod (path : Bytes) (mode rdev : Nat)
  | mkdir (path : Bytes) (mode : Nat)
  | symlink (from_ to_ : Bytes)
  | unlink (path : Bytes)
  | rmdir (path : Bytes)
  | rename (from_ to_ : Bytes) (flags : Nat)
  | link (from_ to_ : Bytes)
  | chmod (path : Bytes) (mode : Nat)
  | chown (path : Bytes) (uid gid : Nat)
  | truncate (path : Bytes) (size : Int)
  | openFile (path : Bytes) (fi : Pointer FuseFileInfo)
  | read (path : Bytes) (buf size : Nat) (offset : Int) (fi : Pointer FuseFileInfo)
  | write (path : Bytes) (buf : Pointer Bytes) (size : Nat) (offset : Int)
      (fi : Pointer FuseFileInfo)
  | statfs (path : Bytes) (stbuf : Nat)
  | release (path : Bytes) (fi : Pointer FuseFileInfo)
  deriving DecidableEq, Repr

/-- The table `nosqlFS_oper`. -/
def nosqlFSOper : Request → Handler Int
  | .getattr path stbuf => nosqlFSGetattr path stbuf
  | .access path mask => nosqlFSAccess path mask
  | .readlink path link size => nosqlFSReadlink path link size
  | .readdir path buf filler offset fi flags => nosqlFSReaddir path buf filler offset fi flags
  | .mknod path mode rdev => nosqlFSMknod path mode rdev
  | .mkdir path mode => nosqlFSMkdir path mode
  | .symlink from_ to_ => nosqlFSSymlink from_ to_
  | .unlink path => nosqlFSUnlink path
  | .rmdir path => nosqlFSRmdir path
  | .rename from_ to_ flags => nosqlFSRename from_ to_ flags
  | .link from_ to_ => nosqlFSLink from_ to_
  | .chmod path mode => nosqlFSChmod path mode
  | .chown path uid gid => nosqlFSChown path uid gid
  | .truncate path size => nosqlFSTruncate path size
  | .openFile path fi => nosqlFSOpen path fi
  | .read path buf size offset fi => nosqlFSRead path buf size offset fi
  | .write path buf size offset fi => nosqlFSWrite path buf size offset fi
  | .statfs path stbuf => nosqlFSStatfs path stbuf
  | .release path fi => nosqlFSRelease path fi

/-- One thread serving requests one after the other. -/
def serve : List Request → Handler Unit
  | [] => return ()
  | request :: rest => do
      let _ ← nosqlFSOper request
      serve rest

/-- What `main` passes to `fuse_main`. -/
structure FuseMainArguments where
  argv : List Bytes
  privateData : Pointer NosqlFSState
  deriving DecidableEq, Repr

/-- `none` is an abort or an exit before `fuse_main`. -/
def main (argv : List Bytes) : Handler (Option FuseMainArguments) := do
  match ← malloc 16 with
  | none => return none
  | some nosqlFSInitData =>
      if argv.length < 3 then
        return none
      else do
        let rootdir ← realpath (argv.getLastD [])
        match ← logOpen with
        | none => return none
        | some logFile =>
            return some ⟨(argv.set (argv.length - 2) (argv.getLastD [])).dropLast,
              ⟨nosqlFSInitData, ⟨logFile, rootdir⟩⟩⟩

end NosqlFS
