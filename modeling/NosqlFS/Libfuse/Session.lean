import NosqlFS.Libfuse.Locking
import NosqlFS.Interaction.LockWord

/-!
# Operations side by side

Several threads work on the node table.  Each locks it for one step at a time: to lock a
path, to change the table for what it has done at the host, and to unlock the path.  In
between, any other thread may do a step, and the kernel may forget what it has looked up.
The option `remember` is off, so that a forgotten node is not kept for a while.
-/

namespace NosqlFS

namespace Libfuse

open LinearHash Text

/-- A path that an operation has locked.  It is armed as long as the operation may still
change the name that it has locked for writing; the way is what it saw then. -/
structure Holding where
  nodeid : Nat
  name : Option Bytes
  wnode : Option Nat
  armed : Bool
  links : List (Nat × Bytes)
  path : Bytes
  deriving DecidableEq

/-- The node table, the lookups that the kernel has to forget, the nodes that are held for
a while and the paths that are locked. -/
structure Session where
  fuse : Fuse
  owed : Nat → Nat
  dots : List Nat
  holdings : List Holding

/-- One step under the lock of the table. -/
inductive Event where
  | find (dir : Nat) (name : Option Bytes) (allocs : Allocs)
  | forget (nodeid nlookup : Nat)
  | hold (nodeid : Nat)
  | drop (a : Nat)
  | lock (nodeid : Nat) (name : Option Bytes) (writes : Bool) (grants : Nat → Option Memory)
  | unlock (holding : Holding)
  | remove (holding : Holding)
  | rename (old new : Holding) (allocs : Allocs)
  | hide (holding : Holding) (name : Bytes) (allocs : Allocs)
  | exchange (old new : Holding) (first second : Allocs)

namespace Fuse

/-- The way from a node up to the root. -/
def linksWithin : Nat → Fuse → Nat → List (Nat × Bytes)
  | 0, _, _ => []
  | steps + 1, f, a =>
      match f.nameOf a, f.parentOf a with
      | some name, some parent => (a, name) :: linksWithin steps f parent
      | _, _ => []

def linksOf (f : Fuse) (nodeid : Nat) : List (Nat × Bytes) :=
  ((f.getNodeNocheck nodeid).map (linksWithin (f.nameTable.use + 1) f)).getD []

end Fuse

namespace Holding

def disarmed (h : Holding) : Holding := { h with armed := false }

/-- The name that is locked for writing. -/
def target (h : Holding) : Bytes := h.name.getD []

end Holding

namespace Session

/-- The kernel has looked the directory up, or it is the root. -/
def Knows (s : Session) (nodeid : Nat) : Prop := nodeid = fuseRootId ∨ 0 < s.owed nodeid

instance {s : Session} {nodeid : Nat} : Decidable (s.Knows nodeid) :=
  inferInstanceAs (Decidable (_ ∨ _))

/-- Some holdings may no longer change their names. -/
def disarm (s : Session) (holdings : List Holding) : List Holding :=
  holdings.map Holding.disarmed ++ s.holdings.diff holdings

/-- What a step does; `none` is a failed assertion, an abort or an access to nothing. -/
def exec (s : Session) : Event → Option Session
  | .find dir name allocs => do
      let (found, f) ← s.fuse.findNode allocs dir name
      return { s with
        fuse := f
        owed := match found.bind f.nodeidOf with
          | none => s.owed
          | some nodeid => Function.update s.owed nodeid (s.owed nodeid + 1) }
  | .forget nodeid nlookup => do
      let f ← s.fuse.forgetNode nodeid nlookup
      return { s with
        fuse := f
        owed := Function.update s.owed nodeid (s.owed nodeid - nlookup) }
  | .hold nodeid =>
      match s.fuse.getNodeNocheck nodeid with
      | none => some s
      | some a => some { s with
          fuse := s.fuse.modify a fun node => { node with refctr := node.refctr + 1 }
          dots := a :: s.dots }
  | .drop a => do
      let f ← s.fuse.unrefNode a
      return { s with fuse := f, dots := s.dots.erase a }
  | .lock nodeid name writes grants => do
      match ← s.fuse.tryGetPath grants nodeid name writes true with
      | (.error _, f) => return { s with fuse := f }
      | (.ok (path, wnode), f) => return { s with
          fuse := f
          holdings := ⟨nodeid, name, wnode, writes, s.fuse.linksOf nodeid, path⟩ :: s.holdings }
  | .unlock holding => do
      let f ← s.fuse.unlockPath holding.nodeid holding.wnode none
      return { s with fuse := f, holdings := s.holdings.erase holding }
  | .remove holding => do
      let f ← s.fuse.removeNode holding.nodeid holding.target
      return { s with fuse := f, holdings := s.disarm [holding] }
  | .rename old new allocs => do
      let (_, f) ← s.fuse.renameNode allocs old.nodeid old.target new.nodeid new.target false
      return { s with fuse := f, holdings := s.disarm [old, new] }
  | .hide holding name allocs => do
      let (_, f) ← s.fuse.renameNode allocs holding.nodeid holding.target holding.nodeid name true
      return { s with fuse := f }
  | .exchange old new first second => do
      let (_, f) ← s.fuse.exchangeNode first second old.nodeid old.target new.nodeid new.target
      return { s with fuse := f, holdings := s.disarm [old, new] }

/-- Nobody is about to change the name. -/
def Quiet (holdings : List Holding) (dir : Nat) (name : Bytes) : Prop :=
  ∀ h ∈ holdings, h.armed = true → h.nodeid = dir → h.name ≠ some name

instance {holdings : List Holding} {dir : Nat} {name : Bytes} :
    Decidable (Quiet holdings dir name) :=
  inferInstanceAs (Decidable (∀ h ∈ holdings, _))

/-- What the kernel and the operations see to: only directories that the kernel knows are
worked on, no more is forgotten than was looked up, and a name that is being changed is
neither changed by another operation nor made anew. -/
def Allowed (s : Session) : Event → Prop
  | .find dir name _ => s.Knows dir ∧ s.fuse.idTable.use + 3 ≤ 2 ^ 32 ∧
      ∀ n, name = some n → s.fuse.lookupNode dir n = none → Quiet s.holdings dir n
  | .forget nodeid nlookup => nodeid ≠ fuseRootId ∧ 0 < nlookup ∧ nlookup ≤ s.owed nodeid ∧
      s.fuse.forgetWaits nodeid nlookup = false
  | .hold _ => True
  | .drop a => a ∈ s.dots
  | .lock nodeid name writes _ => s.Knows nodeid ∧
      (∀ a, s.fuse.nodeidOf a = some nodeid → NamesFit s.fuse a name) ∧
      (s.holdings.length : Int) + 2 + treelockWaitOffset < -1 ∧
      (writes = true → ∃ n, name = some n ∧ Quiet s.holdings nodeid n ∧
        ∀ w number, s.fuse.lookupNode nodeid n = some w → s.fuse.nodeidOf w = some number →
          0 < s.owed number)
  | .unlock holding => holding ∈ s.holdings
  | .remove holding => holding ∈ s.holdings ∧ holding.armed = true
  | .rename old new _ => old ∈ s.holdings ∧ new ∈ s.holdings.erase old ∧ old.armed = true ∧
      new.armed = true
  | .hide holding name _ => holding ∈ s.holdings ∧ holding.armed = true ∧
      Quiet s.holdings holding.nodeid name
  | .exchange old new _ _ => old ∈ s.holdings ∧ new ∈ s.holdings.erase old ∧ old.armed = true ∧
      new.armed = true

/-- The session after `fuse_new`. -/
def start (table : Bool) : Session := ⟨Fuse.start table, fun _ => 0, [], []⟩

/-- The sessions that steps in any order may lead to. -/
inductive Reachable (table : Bool) : Session → Prop where
  | start : Reachable table (start table)
  | step {s s' : Session} {e : Event} : Reachable table s → s.Allowed e → s.exec e = some s' →
      Reachable table s'

end Session

end Libfuse

end NosqlFS
