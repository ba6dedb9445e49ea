import NosqlFS.Libfuse.Nodes
import NosqlFS.Text.Memory

/-!
# Paths and their locks

The path of a node is written backwards into a buffer that grows, from the last name up
to the root.  Every node on the way is locked for reading and the node that the operation
will move is locked for writing, so that the path stays what it is until it is unlocked.
-/

namespace NosqlFS

namespace Libfuse

open LinearHash Text

/-! ## The buffer -/

/-- The buffer of a path, with the position of its first byte. -/
structure PathBuffer where
  memory : Memory
  size : Nat
  start : Nat

namespace PathBuffer

/-- The size that has room for so many bytes; `none` is a loop without end. -/
def enlarge : Nat → Nat → Nat → Option Nat
  | 0, _, _ => none
  | rounds + 1, size, needed =>
      if size < needed then
        enlarge rounds (if 0x80000000 ≤ size then 0xffffffff else size * 2) needed
      else some size

/-- The bytes of a buffer that has been enlarged; the new ones are not initialised. -/
def extend (memory : Memory) (size : Nat) (fresh : Memory) : Memory := fun a =>
  if a < size then memory a else fresh a

/-- Write a name and the slash before it; `none` is a write outside the buffer. -/
def put (buffer : PathBuffer) (name : Bytes) : Option PathBuffer :=
  if buffer.start < name.length + 1 then none
  else
    let named := buffer.memory.write (buffer.start - name.length) name
    some { buffer with
      memory := named.write (buffer.start - name.length - 1) (ascii "/")
      start := buffer.start - name.length - 1 }

/-- `add_name`; the inner result is `none` if the buffer could not be enlarged. -/
def addName (buffer : PathBuffer) (granted : Option Memory) (name : Bytes) :
    Option (Option PathBuffer) :=
  if buffer.start ≤ name.length then do
    let pathlen := buffer.size - buffer.start
    let newsize ← enlarge 34 buffer.size (pathlen + name.length + 1)
    match granted with
    | none => return none
    | some fresh =>
        let larger := extend buffer.memory buffer.size fresh
        let moved := larger.write (newsize - pathlen)
          (larger.bytesAt (buffer.size - pathlen) pathlen)
        return some (← put ⟨moved, newsize, newsize - pathlen⟩ name)
  else do return some (← buffer.put name)

/-- An empty path at the end of a buffer of 256 bytes. -/
def empty (memory : Memory) : PathBuffer := ⟨memory.write 255 [0], 256, 255⟩

/-- The path and its end, moved to the front of the buffer. -/
def finish (buffer : PathBuffer) : Bytes :=
  if buffer.memory buffer.start = 0 then ascii "/" ++ [0]
  else (buffer.memory.write 0
    (buffer.memory.bytesAt buffer.start (buffer.size - buffer.start))).bytesAt 0
      (buffer.size - buffer.start)

end PathBuffer

/-! ## Locks -/

def treelockWrite : Int := -1

/-- `INT_MIN` -/
def treelockWaitOffset : Int := -2 ^ 31

def ENOENT : Int := -2

def EAGAIN : Int := -11

def ENOMEM : Int := -12

namespace Fuse

def setTreelock (f : Fuse) (a : Nat) (treelock : Int) : Fuse :=
  f.modify a fun node => { node with treelock := treelock }

/-- The lock of a node after a reader has left. -/
def releasedLock (treelock : Int) : Int :=
  if treelock - 1 = treelockWaitOffset then 0 else treelock - 1

/-- The loop of `unlock_path`, from a node up to the node where it stops. -/
def unlockWithin (stop : Option Nat) : Nat → Fuse → Option Nat → Option Fuse
  | 0, _, _ => none
  | steps + 1, f, here =>
      if here = stop then some f
      else
        match here with
        | none => none
        | some a =>
            match f.nodes a with
            | none => none
            | some node =>
                if node.nodeid = fuseRootId then some f
                else if node.treelock = 0 ∨ node.treelock = treelockWaitOffset ∨
                    node.treelock = treelockWrite then none
                else unlockWithin stop steps (f.setTreelock a (releasedLock node.treelock)) node.parent

/-- The node that was locked for writing is free again. -/
def unlockWritten (f : Fuse) : Option Nat → Option Fuse
  | none => some f
  | some w =>
      match f.nodes w with
      | none => none
      | some node => if node.treelock = treelockWrite then some (f.setTreelock w 0) else none

/-- `unlock_path`; `none` is a failed assertion, an abort or an access to nothing. -/
def unlockPath (f : Fuse) (nodeid : Nat) (wnode stop : Option Nat) : Option Fuse := do
  let released ← f.unlockWritten wnode
  let a ← released.getNode nodeid
  unlockWithin stop (released.nameTable.use + 2) released (some a)

/-- How the loop of `try_get_path` ends: with an error at a node, or with the path. -/
inductive Walked where
  | failed (err : Int) (last : Nat)
  | reached (buffer : PathBuffer)

/-- The loop of `try_get_path`, from a node up to the root. -/
def walkWithin (grants : Nat → Option Memory) (needLock : Bool) :
    Nat → Nat → Fuse → Nat → PathBuffer → Option (Walked × Fuse)
  | 0, _, _, _, _ => none
  | steps + 1, i, f, a, buffer =>
      match f.nodes a with
      | none => none
      | some node =>
          if node.nodeid = fuseRootId then some (.reached buffer, f)
          else
            match node.name, node.parent with
            | some name, some parent =>
                match buffer.addName (grants i) name with
                | none => none
                | some none => some (.failed ENOMEM a, f)
                | some (some longer) =>
                    if needLock = false then walkWithin grants needLock steps (i + 1) f parent longer
                    else if node.treelock < 0 then some (.failed EAGAIN a, f)
                    else walkWithin grants needLock steps (i + 1)
                      (f.setTreelock a (node.treelock + 1)) parent longer
            | _, _ => some (.failed ENOENT a, f)

/-- `try_get_path` once the node to be written has been locked. -/
def walkPath (f : Fuse) (grants : Nat → Option Memory) (nodeid : Nat) (wnode : Option Nat)
    (needLock : Bool) (buffer : PathBuffer) :
    Option (Except Int (Bytes × Option Nat) × Fuse) := do
  let a ← f.getNode nodeid
  match ← walkWithin grants needLock (f.nameTable.use + 2) 2 f a buffer with
  | (.reached full, locked) => return (.ok (full.finish, wnode), locked)
  | (.failed err last, locked) =>
      if needLock then
        let unlocked ← locked.unlockPath nodeid wnode (some last)
        return (.error err, unlocked)
      else return (.error err, locked)

/-- The buffer with the name that the path ends with, if there is one. -/
def startPath (grants : Nat → Option Memory) (memory : Memory) :
    Option Bytes → Option (Option PathBuffer)
  | none => some (some (.empty memory))
  | some name => (PathBuffer.empty memory).addName (grants 1) name

/-- Lock the node to be written, if there is one and nobody else has it. -/
def lockWritten (f : Fuse) (nodeid : Nat) (name : Bytes) : Option (Except Int (Option Nat) × Fuse) :=
  match f.lookupNode nodeid name with
  | none => some (.ok none, f)
  | some w =>
      match f.nodes w with
      | none => none
      | some node =>
          if node.treelock = 0 then some (.ok (some w), f.setTreelock w treelockWrite)
          else if 0 < node.treelock then
            some (.error EAGAIN, f.setTreelock w (node.treelock + treelockWaitOffset))
          else some (.error EAGAIN, f)

/-- `try_get_path`; a name is there whenever `writes` is.  `none` is an abort, a failed
assertion or an access to nothing. -/
def tryGetPath (f : Fuse) (grants : Nat → Option Memory) (nodeid : Nat) (name : Option Bytes)
    (writes needLock : Bool) : Option (Except Int (Bytes × Option Nat) × Fuse) :=
  match grants 0 with
  | none => some (.error ENOMEM, f)
  | some memory => do
      match ← startPath grants memory name with
      | none => return (.error ENOMEM, f)
      | some buffer =>
          if writes = false then f.walkPath grants nodeid none needLock buffer
          else if needLock = false then none
          else
            match ← f.lockWritten nodeid (name.getD []) with
            | (.error err, waiting) => return (.error err, waiting)
            | (.ok wnode, locked) => locked.walkPath grants nodeid wnode needLock buffer

end Fuse

end Libfuse

end NosqlFS
