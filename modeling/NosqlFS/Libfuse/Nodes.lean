import NosqlFS.Interaction.LinearHash
import NosqlFS.Text.Printf

/-!
# The node table of libfuse

libfuse numbers the files that the kernel has looked up and keeps them as a tree of
named nodes, so that a request on a number can be answered by a path.  A node is found
by its number and by its parent and name, in two linear hash tables.  It lives for as
long as the kernel holds a lookup of it or another node is named below it.
-/

namespace NosqlFS

namespace Libfuse

open LinearHash Text

/-! ## Nodes -/

/-- `struct node`; the address of a node stands for a pointer to it.  The counters do not come
around here: `refctr` stands for fewer than `2^31` references. -/
structure Node where
  nodeid : Nat
  generation : Nat
  refctr : Nat
  parent : Option Nat
  name : Option Bytes
  nlookup : Nat
  openCount : Nat
  isHidden : Bool
  treelock : Int
  deriving DecidableEq, Repr

/-- `struct fuse`, with the nodes in memory and the next address of `alloc_node`. -/
structure Fuse where
  nameTable : Table Nat
  idTable : Table Nat
  nodes : Nat → Option Node
  brk : Nat
  ctr : Nat
  generation : Nat
  hidectr : Nat

/-- Which allocations of one call succeed: a node, a copy of a long name, and a larger
table. -/
structure Allocs where
  node : Bool
  name : Bool
  table : Bool
  deriving DecidableEq, Repr

def fuseRootId : Nat := 1

def fuseUnknownIno : Nat := 0xffffffff

def nodeTableMinSize : Nat := 8192

/-- The size of `inline_name`. -/
def inlineNameSize : Nat := 32

/-- There is no memory for the copy of a long name. -/
def Allocs.Short (allocs : Allocs) (name : Bytes) : Prop :=
  inlineNameSize ≤ name.length ∧ allocs.name = false

def idHash (nodeid : Nat) : Nat := nodeid % 2 ^ 32 * 2654435761 % 2 ^ 32

def nameHash (parent : Nat) (name : Bytes) : Nat :=
  name.foldl (fun hash byte => (hash * 31 + byte.toNat) % 2 ^ 64) (parent % 2 ^ 64)

namespace Fuse

def modify (f : Fuse) (a : Nat) (change : Node → Node) : Fuse :=
  { f with nodes := Function.update f.nodes a ((f.nodes a).map change) }

/-- The parent of a node. -/
def parentOf (f : Fuse) (a : Nat) : Option Nat := (f.nodes a).bind Node.parent

def nameOf (f : Fuse) (a : Nat) : Option Bytes := (f.nodes a).bind Node.name

/-- The number behind a pointer. -/
def nodeidOf (f : Fuse) (a : Nat) : Option Nat := (f.nodes a).map Node.nodeid

/-- The hash under which a node is kept in the table of numbers.  An address that leads to nothing
counts as zero, but no table holds one. -/
def idHashOf (f : Fuse) (a : Nat) : Nat := idHash ((f.nodeidOf a).getD 0)

/-- The hash under which a node is kept in the table of names. -/
def nameHashOf (f : Fuse) (a : Nat) : Nat :=
  nameHash (((f.parentOf a).bind f.nodeidOf).getD 0) ((f.nameOf a).getD [])

/-! ## The table of numbers -/

def getNodeNocheck (f : Fuse) (nodeid : Nat) : Option Nat :=
  f.idTable.find (idHash nodeid) fun a => f.nodeidOf a = some nodeid

/-- `none` is an abort. -/
def getNode (f : Fuse) (nodeid : Nat) : Option Nat := f.getNodeNocheck nodeid

def hashId (f : Fuse) (allocs : Allocs) (a : Nat) : Fuse :=
  { f with idTable := f.idTable.insert f.idHashOf allocs.table a }

def unhashId (f : Fuse) (a : Nat) : Fuse :=
  match f.idTable.take f.idHashOf a with
  | none => f
  | some taken => { f with idTable := taken.settle nodeTableMinSize }

/-! ## The table of names -/

/-- The node has this parent and this name. -/
def isNamed (f : Fuse) (parent : Nat) (name : Bytes) (a : Nat) : Bool :=
  (f.parentOf a).bind f.nodeidOf = some parent ∧ f.nameOf a = some name

def lookupNode (f : Fuse) (parent : Nat) (name : Bytes) : Option Nat :=
  f.nameTable.find (nameHash parent name) (f.isNamed parent name)

/-- The flag is false if the name could not be copied; `none` is an abort. -/
def hashName (f : Fuse) (allocs : Allocs) (a parentid : Nat) (name : Bytes) :
    Option (Bool × Fuse) := do
  let parent ← f.getNode parentid
  if inlineNameSize ≤ name.length ∧ allocs.name = false then
    return (false, f.modify a fun node => { node with name := none })
  else
    let named := (f.modify parent fun node => { node with refctr := node.refctr + 1 }).modify a
      fun node => { node with parent := some parent, name := some name }
    return (true,
      { named with nameTable := named.nameTable.insert named.nameHashOf allocs.table a })

/-- `unhash_name`, given how the reference to the parent is dropped; `none` is an abort or
an access to a node that has been freed. -/
def unhashNameBy (unref : Fuse → Nat → Option Fuse) (f : Fuse) (a : Nat) : Option Fuse := do
  let node ← f.nodes a
  match node.name with
  | none => return f
  | some _ =>
      let parent ← node.parent
      let taken ← f.nameTable.take f.nameHashOf a
      let dropped ← unref { f with nameTable := taken } parent
      let _ ← dropped.nodes a
      let nameless := dropped.modify a fun node => { node with name := none, parent := none }
      return { nameless with nameTable := nameless.nameTable.settle nodeTableMinSize }

/-- `delete_node`, given how the reference to the parent is dropped. -/
def deleteNodeBy (unref : Fuse → Nat → Option Fuse) (f : Fuse) (a : Nat) : Option Fuse := do
  let node ← f.nodes a
  if node.treelock ≠ 0 then none
  else
    let nameless ← unhashNameBy unref f a
    return { nameless.unhashId a with nodes := Function.update (nameless.unhashId a).nodes a none }

/-- `unref_node` to a depth; `none` is a failed assertion or an abort.  Every recursive
call is made with a node less in the table of names. -/
def unrefNodeWithin : Nat → Fuse → Nat → Option Fuse
  | 0, _, _ => none
  | depth + 1, f, a => do
      let node ← f.nodes a
      if node.refctr = 0 then none
      else
        let dropped := f.modify a fun node => { node with refctr := node.refctr - 1 }
        if node.refctr - 1 = 0 then deleteNodeBy (unrefNodeWithin depth) dropped a
        else return dropped

def unrefNode (f : Fuse) (a : Nat) : Option Fuse := unrefNodeWithin (f.nameTable.use + 1) f a

def unhashName (f : Fuse) (a : Nat) : Option Fuse := unhashNameBy unrefNode f a

/-! ## Numbers -/

/-- The candidates for a new number, until one is free.  A candidate that is not free is
zero, the unknown number or the number of a node. -/
def nextIdWithin : Nat → Fuse → Option (Nat × Fuse)
  | 0, _ => none
  | tries + 1, f =>
      let ctr := (f.ctr + 1) % 2 ^ 32
      let further := { f with
        ctr := ctr
        generation := if ctr = 0 then (f.generation + 1) % 2 ^ 32 else f.generation }
      if ctr = 0 ∨ ctr = fuseUnknownIno ∨ (further.getNodeNocheck ctr).isSome then
        nextIdWithin tries further
      else some (ctr, further)

def nextId (f : Fuse) : Option (Nat × Fuse) := nextIdWithin (f.idTable.use + 3) f

/-! ## Operations -/

def incNlookup (f : Fuse) (a : Nat) : Fuse :=
  f.modify a fun node => { node with
    refctr := if node.nlookup = 0 then node.refctr + 1 else node.refctr
    nlookup := node.nlookup + 1 }

/-- A node filled with zeros but for its number and its generation. -/
def allocNode (f : Fuse) (nodeid : Nat) : Nat × Fuse :=
  (f.brk, { f with
    brk := f.brk + 1
    nodes := Function.update f.nodes f.brk
      (some ⟨nodeid, f.generation, 0, none, none, 0, 0, false, 0⟩) })

def freeNode (f : Fuse) (a : Nat) : Fuse := { f with nodes := Function.update f.nodes a none }

/-- A new node under a name; no address if memory is short. -/
def makeNode (f : Fuse) (allocs : Allocs) (parent : Nat) (name : Bytes) :
    Option (Option Nat × Fuse) :=
  if allocs.node = false then some (none, f)
  else do
    let (nodeid, numbered) ← f.nextId
    let (a, allocated) := numbered.allocNode nodeid
    let (hashed, named) ← allocated.hashName allocs a parent name
    if hashed then return (some a, (named.hashId allocs a).incNlookup a)
    else return (none, named.freeNode a)

def findNode (f : Fuse) (allocs : Allocs) (parent : Nat) (name : Option Bytes) :
    Option (Option Nat × Fuse) :=
  match name with
  | none => do
      let a ← f.getNode parent
      return (some a, f.incNlookup a)
  | some name =>
      match f.lookupNode parent name with
      | some a => some (some a, f.incNlookup a)
      | none => f.makeNode allocs parent name

/-- `forget_node` waits as long as the last lookups of a locked node are forgotten. -/
def forgetWaits (f : Fuse) (nodeid nlookup : Nat) : Bool :=
  nodeid ≠ fuseRootId ∧ ((f.getNode nodeid).bind f.nodes).any fun node =>
    node.nlookup = nlookup ∧ node.treelock ≠ 0

/-- `forget_node` past its wait. -/
def forgetNode (f : Fuse) (nodeid nlookup : Nat) : Option Fuse :=
  if nodeid = fuseRootId then some f
  else do
    let a ← f.getNode nodeid
    let node ← f.nodes a
    if node.nlookup < nlookup then none
    else
      let forgotten := f.modify a fun node => { node with nlookup := node.nlookup - nlookup }
      if node.nlookup - nlookup = 0 then forgotten.unrefNode a else return forgotten

def unlinkNode (f : Fuse) (a : Nat) : Option Fuse := f.unhashName a

/-- Take the name of a node away, if one was found. -/
def unhashFound (f : Fuse) : Option Nat → Option Fuse
  | none => some f
  | some a => f.unhashName a

/-- Give a node a name, if one was found. -/
def hashFound (f : Fuse) (allocs : Allocs) (found : Option Nat) (parentid : Nat) (name : Bytes) :
    Option (Bool × Fuse) :=
  match found with
  | none => some (true, f)
  | some a => f.hashName allocs a parentid name

def removeNode (f : Fuse) (dir : Nat) (name : Bytes) : Option Fuse :=
  match f.lookupNode dir name with
  | none => some f
  | some a => f.unlinkNode a

/-- The result is what `rename_node` returns: `-EBUSY`, `-ENOMEM` or zero. -/
def renameNode (f : Fuse) (allocs : Allocs) (olddir : Nat) (oldname : Bytes) (newdir : Nat)
    (newname : Bytes) (hide : Bool) : Option (Int × Fuse) :=
  match f.lookupNode olddir oldname, f.lookupNode newdir newname with
  | none, _ => some (0, f)
  | some a, newnode =>
      if newnode.isSome ∧ hide then some (-16, f)
      else do
        let cleared ← f.unhashFound newnode
        let nameless ← cleared.unhashName a
        let (hashed, named) ← nameless.hashName allocs a newdir newname
        if hashed then
          return (0, if hide then named.modify a fun node => { node with isHidden := true }
            else named)
        else return (-12, named)

/-- The result is `-ENOMEM` or zero. -/
def exchangeNode (f : Fuse) (first second : Allocs) (olddir : Nat) (oldname : Bytes)
    (newdir : Nat) (newname : Bytes) : Option (Int × Fuse) := do
  let oldnode := f.lookupNode olddir oldname
  let newnode := f.lookupNode newdir newname
  let without ← f.unhashFound oldnode
  let nameless ← without.unhashFound newnode
  let (moved, there) ← nameless.hashFound first oldnode newdir newname
  if moved then
    let (back, here) ← there.hashFound second newnode olddir oldname
    return (if back then 0 else -12, here)
  else return (-12, there)

/-- `fuse_new`: the root is the only node. -/
def start (table : Bool) : Fuse :=
  let root : Node := ⟨fuseRootId, 0, 0, none, some (ascii "/"), 0, 0, false, 0⟩
  let bare : Fuse := ⟨Table.empty nodeTableMinSize, Table.empty nodeTableMinSize,
    Function.update (fun _ => none) 0 (some root), 1, 0, 0, 0⟩
  (bare.incNlookup 0).hashId ⟨true, true, table⟩ 0

end Fuse

end Libfuse

end NosqlFS
