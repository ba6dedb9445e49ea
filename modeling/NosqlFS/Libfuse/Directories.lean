import NosqlFS.Interaction.Paging
import NosqlFS.Libfuse.Direntries
import NosqlFS.Libfuse.PathBuffer

/-!
# Open directories of libfuse

A directory that the kernel has opened keeps the entries that the filesystem has handed
over and the buffer of the last reply.  The filesystem hands over entries without offsets,
and libfuse keeps them and numbers them, or entries with offsets of its own, and libfuse
writes them into the buffer at once.
-/

namespace NosqlFS

namespace Libfuse

open Text Paging

def EIO : Int := -5

def fuseFillDirPlus : Nat := 2

/-- `struct fuse_direntry` -/
structure Direntry where
  stat : Stat
  name : Bytes
  deriving DecidableEq, Repr

/-- `struct fuse_entry_param`, with its timeouts as seconds and nanoseconds. -/
structure EntryParam where
  ino : Nat
  generation : Nat
  attr : Stat
  attrTimeout : Nat × Nat
  entryTimeout : Nat × Nat
  deriving DecidableEq, Repr

/-- The options `use_ino` and `readdir_ino`. -/
structure DirConfig where
  useIno : Bool
  readdirIno : Bool
  deriving DecidableEq, Repr

/-- One call of the filler, with what it meets: the number that `lookup_nodeid` finds for
the name, the entry that `do_lookup` makes, the memory that `realloc` gives and whether
there is memory for an entry. -/
structure FillCall where
  name : Bytes
  statp : Option Stat
  off : Int
  flags : Nat
  number : Nat
  lookup : Except Errno EntryParam
  fresh : Option Memory
  granted : Bool

/-- `struct fuse_dh` -/
structure DirHandle where
  contents : Option Memory
  first : List Direntry
  len : Nat
  size : Nat
  needlen : Nat
  filled : Bool
  error : Int

/-! ## Records of entries -/

def convertStat (stbuf : Stat) : FuseAttr :=
  ⟨.ofNat stbuf.stIno, .ofInt stbuf.stSize, .ofNat stbuf.stBlocks, .ofInt stbuf.stAtime,
    .ofInt stbuf.stMtime, .ofInt stbuf.stCtime, .ofInt stbuf.stAtimNsec,
    .ofInt stbuf.stMtimNsec, .ofInt stbuf.stCtimNsec, .ofNat stbuf.stMode, .ofNat stbuf.stNlink,
    .ofNat stbuf.stUid, .ofNat stbuf.stGid, .ofNat stbuf.stRdev, .ofNat stbuf.stBlksize, 0⟩

def fillEntry (e : EntryParam) : FuseEntryOut :=
  ⟨.ofNat e.ino, .ofNat e.generation, .ofNat e.entryTimeout.1, .ofNat e.attrTimeout.1,
    .ofNat e.entryTimeout.2, .ofNat e.attrTimeout.2, convertStat e.attr⟩

def direntOf (name : Bytes) (stbuf : Stat) (off : Int) : FuseDirent :=
  ⟨.ofNat stbuf.stIno, .ofInt off, .ofNat ((stbuf.stMode &&& sIfmt) >>> 12), name⟩

/-- The record that `fuse_add_direntry` writes. -/
def fuseAddDirentry (name : Bytes) (stbuf : Stat) (off : Int) : DirRecord :=
  ⟨none, direntOf name stbuf off⟩

/-- The record that `fuse_add_direntry_plus` writes. -/
def fuseAddDirentryPlus (name : Bytes) (e : EntryParam) (off : Int) : DirRecord :=
  ⟨some (fillEntry e), direntOf name e.attr off⟩

/-- Add a record to a buffer if it fits; the length is returned either way, and `none` is a
write outside the buffer. -/
def DirRecord.add (record : DirRecord) (contents : Option Memory) (allocated p bufsize : Nat) :
    Option (Nat × Option Memory) :=
  match contents with
  | none => some (record.size, none)
  | some memory =>
      if bufsize < record.size then some (record.size, some memory)
      else if allocated < p + record.size then none
      else some (record.size, some (memory.write p record.bytes))

namespace DirHandle

/-- The handle that `fuse_lib_opendir` makes. -/
def opened : DirHandle := ⟨none, [], 0, 0, 0, false, 0⟩

/-- The bytes of the reply. -/
def shown (dh : DirHandle) : Bytes :=
  match dh.contents with
  | none => []
  | some memory => memory.bytesAt 0 dh.len

/-- The bytes of the buffer that are left; the subtraction is unsigned. -/
def remaining (dh : DirHandle) : Nat := (dh.needlen + 2 ^ 32 - dh.len) % 2 ^ 32

/-- The flag is false if the buffer could not be enlarged. -/
def extendContents (dh : DirHandle) (minsize : Nat) (fresh : Option Memory) :
    Option (Bool × DirHandle) :=
  if dh.size < minsize then do
    let newsize ← PathBuffer.enlarge 34 (if dh.size = 0 then 1024 else dh.size) minsize
    match fresh with
    | none => return (false, { dh with error := ENOMEM })
    | some fresh => return (true, { dh with
        contents := some (PathBuffer.extend (dh.contents.getD fresh) dh.size fresh)
        size := newsize })
  else return (true, dh)

/-! ## The filler -/

/-- What `fill_dir` and `fill_dir_plus` do with an entry that has been completed. -/
def storeEntry (dh : DirHandle) (call : FillCall) (record : DirRecord) (stat : Stat) :
    Option (Int × DirHandle) :=
  if call.off ≠ 0 then
    if dh.first ≠ [] then some (1, { dh with error := EIO })
    else do
      let (extended, room) ← dh.extendContents dh.needlen call.fresh
      if extended = false then return (1, room)
      else
        let direct := { room with filled := false }
        let (length, contents) ←
          record.add direct.contents direct.size direct.len direct.remaining
        let written := { direct with contents := contents }
        if written.needlen < written.len + length then return (1, written)
        else return (0, { written with len := written.len + length })
  else if dh.filled = false then some (1, { dh with error := EIO })
  else if call.granted = false then some (1, { dh with error := ENOMEM })
  else some (0, { dh with first := dh.first ++ [⟨stat, call.name⟩] })

/-- The two fillers differ in how they complete an entry. -/
def fillWith (dh : DirHandle) (call : FillCall) (entry : Except Errno (DirRecord × Stat)) :
    Option (Int × DirHandle) :=
  if call.flags &&& (2 ^ 32 - 1 - fuseFillDirPlus) ≠ 0 then some (1, { dh with error := EIO })
  else
    match entry with
    | .error e => some (1, { dh with error := -e.code })
    | .ok (record, stat) => dh.storeEntry call record stat

end DirHandle

/-- The attributes that `fill_dir` keeps of an entry. -/
def fillStat (conf : DirConfig) (call : FillCall) : Stat :=
  let given := call.statp.getD { Stat.zero with stIno := fuseUnknownIno }
  if conf.useIno then given
  else { given with stIno := if conf.readdirIno then call.number else fuseUnknownIno }

def isDotOrDotdot (name : Bytes) : Bool := name = ascii "." ∨ name = ascii ".."

/-- The attributes are used only if they come with an offset and the flag. -/
def fillParam (conf : DirConfig) (call : FillCall) : Except Errno EntryParam :=
  match call.statp with
  | some statp =>
      if call.off ≠ 0 ∧ call.flags &&& fuseFillDirPlus ≠ 0 then
        if isDotOrDotdot call.name then .ok ⟨0, 0, statp, (0, 0), (0, 0)⟩ else call.lookup
      else .ok ⟨0, 0, unknownStat, (0, 0), (0, 0)⟩
  | none => .ok ⟨0, 0, unknownStat, (0, 0), (0, 0)⟩
where
  unknownStat : Stat := { Stat.zero with
    stIno := if conf.useIno = false ∧ conf.readdirIno then call.number else fuseUnknownIno }

namespace DirHandle

def fillDir (conf : DirConfig) (dh : DirHandle) (call : FillCall) : Option (Int × DirHandle) :=
  dh.fillWith call
    (.ok (fuseAddDirentry call.name (fillStat conf call) call.off, fillStat conf call))

def fillDirPlus (conf : DirConfig) (dh : DirHandle) (call : FillCall) :
    Option (Int × DirHandle) :=
  dh.fillWith call ((fillParam conf call).map fun e =>
    (fuseAddDirentryPlus call.name e call.off, e.attr))

def fill (conf : DirConfig) (plus : Bool) : DirHandle → FillCall → Option (Int × DirHandle) :=
  if plus then fillDirPlus conf else fillDir conf

/-- The calls of the filler that a filesystem makes, one after the other. -/
def fillAll (conf : DirConfig) (plus : Bool) : DirHandle → List FillCall → Option DirHandle
  | dh, [] => some dh
  | dh, call :: calls => do
      let (_, next) ← fill conf plus dh call
      fillAll conf plus next calls

end DirHandle

/-! ## Requests -/

/-- What a filesystem does to fill a directory: the error of the path, its calls of the
filler and its result. -/
structure Filling where
  pathError : Int
  calls : List FillCall
  result : Int

structure ReaddirRequest where
  size : Nat
  off : Int
  plus : Bool
  answer : Filling
  fresh : Option Memory

/-- The record of an entry of the list. -/
def listRecord (plus : Bool) (de : Direntry) (pos : Int) : DirRecord :=
  if plus then fuseAddDirentryPlus de.name ⟨0, 0, de.stat, (0, 0), (0, 0)⟩ pos
  else fuseAddDirentry de.name de.stat pos

/-- The first loop of `readdir_fill_from_list`. -/
def skipEntries (off : Int) : Int → List Direntry → Int × List Direntry
  | pos, [] => (pos, [])
  | pos, de :: rest => if pos < off then skipEntries off (pos + 1) rest else (pos, de :: rest)

namespace DirHandle

/-- The second loop of `readdir_fill_from_list`; its lengths are unsigned. -/
def listEntries (plus : Bool) : DirHandle → Int → List Direntry → Option DirHandle
  | dh, _, [] => some dh
  | dh, pos, de :: rest => do
      let (length, contents) ←
        (listRecord plus de (pos + 1)).add dh.contents dh.size dh.len dh.remaining
      let written := { dh with contents := contents }
      let newlen := (dh.len + length) % 2 ^ 32
      if dh.needlen < newlen then return written
      else listEntries plus { written with len := newlen } (pos + 1) rest

def readdirFillFromList (dh : DirHandle) (off : Int) (plus : Bool) (fresh : Option Memory) :
    Option (Int × DirHandle) := do
  let (extended, room) ← { dh with len := 0 }.extendContents dh.needlen fresh
  if extended = false then return (room.error, room)
  else
    let (pos, behind) := skipEntries off 0 room.first
    let listed ← room.listEntries plus pos behind
    return (0, listed)

/-- The handle that a filesystem begins to fill. -/
def emptied (dh : DirHandle) (size : Nat) : DirHandle :=
  { dh with first := [], len := 0, error := 0, needlen := size % 2 ^ 32, filled := true }

def readdirFill (conf : DirConfig) (dh : DirHandle) (size : Nat) (plus : Bool)
    (answer : Filling) : Option (Int × DirHandle) :=
  if answer.pathError ≠ 0 then some (answer.pathError, dh)
  else do
    let done ← fillAll conf plus (dh.emptied size) answer.calls
    let err := if answer.result ≠ 0 then answer.result else done.error
    return (err, if err ≠ 0 then { done with filled := false } else done)

/-- The list is made anew at the start of the directory. -/
def rewound (dh : DirHandle) (off : Int) : DirHandle :=
  if off = 0 then { dh with filled := false } else dh

/-- The answer of `fuse_readdir_common` once the directory is filled. -/
def replyFilled (dh : DirHandle) (request : ReaddirRequest) :
    Option (Except Int Bytes × DirHandle) :=
  if dh.filled then do
    let (err, listed) ← { dh with needlen := request.size % 2 ^ 32 }.readdirFillFromList
      request.off request.plus request.fresh
    if err ≠ 0 then return (.error err, listed) else return (.ok listed.shown, listed)
  else some (.ok dh.shown, dh)

def fuseReaddirCommon (conf : DirConfig) (dh : DirHandle) (request : ReaddirRequest) :
    Option (Except Int Bytes × DirHandle) :=
  let ready := dh.rewound request.off
  if ready.filled then ready.replyFilled request
  else do
    let (err, filled) ← ready.readdirFill conf request.size request.plus request.answer
    if err ≠ 0 then return (.error err, filled) else filled.replyFilled request

end DirHandle

end Libfuse

end NosqlFS
