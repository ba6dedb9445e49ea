import NosqlFS.Host.Calls

/-!
# The request log

The functions of `log.c`.  Every message is a timestamp put into the process-wide
`time_buf`, that buffer written to the log, and the formatted message after it.
-/

namespace NosqlFS

open Interaction Text

/-! ## One message -/

def logMsg (format : String) (args : List Arg) : Handler Unit := do
  let timep ← time
  let tm ← localtime timep
  strftime tm
  let data ← nosqlFSData
  fputs data.target.logFile
  let data ← nosqlFSData
  vfprintf data.target.logFile format args

/-! ## Results of host calls -/

/-- Log the error and return `-errno`, read after the message is written. -/
def logError (func : String) : Handler Int := do
  let errnum ← getErrno
  let text ← strerror errnum
  logMsg "ERROR %s : %s\n" [.str (ascii func), .str text]
  let errno ← getErrno
  return -errno

/-- Log a result and restore `errno` afterwards. -/
def logRetstat (func : String) (retstat : Int) : Handler Unit := do
  let errsave ← getErrno
  logMsg "%s returned %d\n" [.str (ascii func), .int retstat]
  setErrno errsave

def logSyscall (func : String) (retstat minRet : Int) : Handler Int := do
  logRetstat func retstat
  if retstat < minRet then do
    let _ ← logError func
    let errno ← getErrno
    return -errno
  else
    return retstat

/-! ## Dumps of the FUSE records -/

def logConn (conn : Pointer FuseConnInfo) : Handler Unit := do
  logMsg "fuse_conn_info:\n" []
  logMsg "proto_major = %d\n" [.int conn.target.protoMajor]
  logMsg "proto_minor = %d\n" [.int conn.target.protoMinor]
  logMsg "async_read = %d\n" [.int conn.target.asyncRead]
  logMsg "max_write = %d\n" [.int conn.target.maxWrite]
  logMsg "max_readahead = %d\n" [.int conn.target.maxReadahead]
  logMsg "capable = %08x\n" [.int conn.target.capable]
  logMsg "want = %08x\n" [.int conn.target.want]
  logMsg "max_background = %d\n" [.int conn.target.maxBackground]
  logMsg "congestion_threshold = %d\n" [.int conn.target.congestionThreshold]

/-- A NULL root directory prints as `(null)`. -/
def logFuseContext (context : Pointer FuseContext) : Handler Unit := do
  logMsg "fuse_context" []
  logMsg "fuse = %08x\n" [.int context.target.fuse]
  logMsg "uid = %d\n" [.int context.target.uid]
  logMsg "gid = %d\n" [.int context.target.gid]
  logMsg "pid = %d\n" [.int context.target.pid]
  logMsg "private_data = %08x\n" [.int context.target.privateData.address]
  let data ← nosqlFSData
  logMsg "logFile = %08x\n" [.int data.target.logFile]
  let data ← nosqlFSData
  logMsg "rootdir = %s\n" [.str (data.target.rootdir.getD (ascii "(null)"))]

def logFi (fi : Pointer FuseFileInfo) : Handler Unit := do
  logMsg "fi:\n" []
  logMsg "flags = 0x%08x\n" [.int fi.target.flags]
  logMsg "writepage = %d\n" [.int fi.target.writepage]
  logMsg "direct_io = %d\n" [.int fi.target.directIo]
  logMsg "keep_cache = %d\n" [.int fi.target.keepCache]
  logMsg "fh = 0x%016llx\n" [.int fi.target.fh]
  logMsg "lock_owner = 0x%016llx\n" [.int fi.target.lockOwner]

/-! ## Opening the log -/

def logNameFormat : String := "../log/nosqlFS_%d-%d-%d.log"

/-- The name of the log of one day, as `sprintf` leaves it in `log_name`. -/
def logName (p : Tm) : Bytes :=
  render logNameFormat [.int (p.tmMon + 1), .int p.tmMday, .int (p.tmYear + 1900)]

/-- `char log_name[30]`. -/
def logNameSize : Nat := 30

/-- The stream of the log, or `none` where the program exits. -/
def logOpen : Handler (Option Nat) := do
  let now ← time
  let p ← gmtime now
  fopen (logName p) "a"

end NosqlFS
