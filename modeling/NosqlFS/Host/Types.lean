import NosqlFS.Text.Printf

/-!
# Host data types

The structures that cross the boundary between the filesystem and the host: error
numbers, `struct stat`, `struct tm`, directory entries and the FUSE records.  Only
the fields that the program reads, logs or fills in are present.
-/

namespace NosqlFS

open Text

/-- The error number of a failed host call; it is at least one. -/
structure Errno where
  code : Int
  positive : 1 ≤ code
  deriving DecidableEq, Repr

namespace Errno

def eperm : Errno := ⟨1, by decide⟩
def enoent : Errno := ⟨2, by decide⟩
def eio : Errno := ⟨5, by decide⟩
def ebadf : Errno := ⟨9, by decide⟩
def eacces : Errno := ⟨13, by decide⟩
def eexist : Errno := ⟨17, by decide⟩
def einval : Errno := ⟨22, by decide⟩
def enospc : Errno := ⟨28, by decide⟩

@[ext]
theorem ext {first second : Errno} (same : first.code = second.code) : first = second := by
  cases first
  cases second
  cases same
  rfl

end Errno

/-- What a call that reports no error through `errno` does to it. -/
inductive ErrnoEffect where
  | keep
  | set (value : Int) (nonzero : value ≠ 0)
  deriving DecidableEq, Repr

def ErrnoEffect.apply : ErrnoEffect → Int → Int
  | .keep, errno => errno
  | .set value _, _ => value

@[simp]
theorem ErrnoEffect.apply_keep (errno : Int) : ErrnoEffect.keep.apply errno = errno := rfl

theorem ErrnoEffect.apply_ne_zero (effect : ErrnoEffect) {errno : Int} (nonzero : errno ≠ 0) :
    effect.apply errno ≠ 0 := by
  cases effect with
  | keep => exact nonzero
  | set value valid => exact valid

/-- A C pointer with the object behind it. -/
structure Pointer (α : Type) where
  address : Nat
  target : α
  deriving DecidableEq, Repr

/-! ## Flag words -/

def oRdonly : Nat := 0
def oWronly : Nat := 1
def oRdwr : Nat := 2
def oAccmode : Nat := 3
def oCreat : Nat := 64
def oExcl : Nat := 128

def sIfmt : Nat := 61440
def sIfreg : Nat := 32768
def sIfifo : Nat := 4096

def sIsreg (mode : Nat) : Prop := mode &&& sIfmt = sIfreg
def sIsfifo (mode : Nat) : Prop := mode &&& sIfmt = sIfifo

instance (mode : Nat) : Decidable (sIsreg mode) := inferInstanceAs (Decidable (_ = _))
instance (mode : Nat) : Decidable (sIsfifo mode) := inferInstanceAs (Decidable (_ = _))

def renameNoreplace : Nat := 1
def renameExchange : Nat := 2

/-! ## Records -/

structure Stat where
  stDev : Nat
  stIno : Nat
  stMode : Nat
  stNlink : Nat
  stUid : Nat
  stGid : Nat
  stRdev : Nat
  stSize : Int
  stBlksize : Nat
  stBlocks : Nat
  stAtime : Int
  stMtime : Int
  stCtime : Int
  stAtimNsec : Int
  stMtimNsec : Int
  stCtimNsec : Int
  deriving DecidableEq, Repr

/-- `memset(&st, 0, sizeof(st))`. -/
def Stat.zero : Stat := ⟨0, 0, 0, 0, 0, 0, 0, 0, 0, 0, 0, 0, 0, 0, 0, 0⟩

structure Statvfs where
  fBsize : Nat
  fFrsize : Nat
  fBlocks : Nat
  fBfree : Nat
  fBavail : Nat
  fFiles : Nat
  fFfree : Nat
  fFavail : Nat
  fFsid : Nat
  fFlag : Nat
  fNamemax : Nat
  deriving DecidableEq, Repr

structure Dirent where
  dIno : Nat
  dType : UInt8
  dName : Bytes
  deriving DecidableEq, Repr

/-- A broken-down time within the ranges of `localtime` and `gmtime`. -/
structure Tm where
  tmSec : Nat
  tmMin : Nat
  tmHour : Nat
  tmMday : Nat
  tmMon : Nat
  tmYear : Int
  secBound : tmSec ≤ 60
  minBound : tmMin < 60
  hourBound : tmHour < 24
  mdayBound : 1 ≤ tmMday ∧ tmMday ≤ 31
  monBound : tmMon < 12
  deriving DecidableEq, Repr

/-- `strftime` with the format `"%m-%d-%Y %H:%M:%S "`; at most 32 bytes for any `int` year. -/
def stamp (tm : Tm) : Bytes :=
  render "%02d-%02d-%d %02d:%02d:%02d " [.int (tm.tmMon + 1), .int tm.tmMday,
    .int (tm.tmYear + 1900), .int tm.tmHour, .int tm.tmMin, .int tm.tmSec]

theorem newline_notMem_stamp (tm : Tm) : newline ∉ stamp tm := by
  intro member
  obtain literal | ⟨text, inside, _⟩ := newline_mem_renderPieces_iff.mp member
  · exact absurd literal (by decide)
  · have none : spliced (parse "%02d-%02d-%d %02d:%02d:%02d ") [.int (tm.tmMon + 1),
        .int tm.tmMday, .int (tm.tmYear + 1900), .int tm.tmHour, .int tm.tmMin,
        .int tm.tmSec] = [] := rfl
    exact List.not_mem_nil (none ▸ inside)

/-- `struct nosqlFS_state`; the root directory is NULL when `realpath` failed. -/
structure NosqlFSState where
  logFile : Nat
  rootdir : Option Bytes
  deriving DecidableEq, Repr

structure FuseContext where
  fuse : Nat
  uid : Nat
  gid : Nat
  pid : Int
  privateData : Pointer NosqlFSState
  deriving DecidableEq, Repr

structure FuseConnInfo where
  protoMajor : Nat
  protoMinor : Nat
  asyncRead : Nat
  maxWrite : Nat
  maxReadahead : Nat
  capable : Nat
  want : Nat
  maxBackground : Nat
  congestionThreshold : Nat
  deriving DecidableEq, Repr

structure FuseFileInfo where
  flags : Nat
  writepage : Nat
  directIo : Nat
  keepCache : Nat
  fh : Nat
  lockOwner : Nat
  deriving DecidableEq, Repr

end NosqlFS
