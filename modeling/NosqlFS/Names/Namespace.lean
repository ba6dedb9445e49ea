import NosqlFS.Paths.Space
import NosqlFS.Runs.Outcomes

/-!
# The host's namespace

Which names exist on the host and which node each of them is, and how the answers of
the system calls change this.  Names are compared component by component; symbolic
links are nodes and are not followed.
-/

namespace NosqlFS

open Interaction Text Paths

/-- The components of a path. -/
def components (path : Bytes) : List Bytes :=
  (path.splitOn (byteOf '/')).filter fun name => !name.isEmpty

structure Node where
  inode : Nat
  fileType : Nat
  deriving DecidableEq, Repr

abbrev Namespace : Type := Space Bytes Node

def sIfdir : Nat := 16384
def sIflnk : Nat := 40960

/-- The type of node that `mknod` makes; no type at all means a regular file. -/
def typeOf (mode : Nat) : Nat := if mode &&& sIfmt = 0 then sIfreg else mode &&& sIfmt

/-- The new name and the type of node of a call that creates one, and never opens an
existing one. -/
def HostCall.creates : HostCall → Option (Bytes × Nat)
  | .openPath path flags _ =>
      if flags &&& oCreat ≠ 0 ∧ flags &&& oExcl ≠ 0 then some (path, sIfreg) else none
  | .mkfifo path _ => some (path, sIfifo)
  | .mknod path mode _ => some (path, typeOf mode)
  | .mkdir path _ => some (path, sIfdir)
  | .symlink _ path => some (path, sIflnk)
  | _ => none

theorem HostCall.not_isLog_of_creates {c : HostCall} (creates : c.creates.isSome = true) :
    c.isLog = false := by
  cases c <;> first | rfl | cases creates

namespace Namespace

/-- A node of the type appears at a path that had none. -/
def Created (before : Namespace) (path : Bytes) (fileType : Nat) (after : Namespace) : Prop :=
  before (components path) = none ∧ ∃ node : Node, node.fileType = fileType ∧
    after = before.insert (components path) node

/-- Creation fails with `EEXIST` where there is a node, and changes nothing. -/
def CreationRefused (before : Namespace) (path : Bytes) (e : Errno) (after : Namespace) : Prop :=
  after = before ∧ (before (components path) ≠ none → e = .eexist)

/-- What a successful `rename` does: nothing between two names of one node, otherwise
the node moves with everything below it, in place of what the new name was. -/
def Renamed (before : Namespace) (from_ to_ : Bytes) (after : Namespace) : Prop :=
  before (components from_) ≠ none ∧
    if before (components from_) = before (components to_) then after = before
    else ¬ components from_ <+: components to_ ∧ ¬ components to_ <+: components from_ ∧
      after = before.move (components from_) (components to_)

/-- The two names are swapped. -/
def Exchanged (before : Namespace) (from_ to_ : Bytes) (after : Namespace) : Prop :=
  ∃ first second, before (components from_) = some first ∧
    before (components to_) = some second ∧
    after (components from_) = some second ∧ after (components to_) = some first

/-- How one answered call changes the namespace. -/
def Step (before : Namespace) (event : HostEvent) (after : Namespace) : Prop :=
  match event.call.creates, event with
  | some (path, fileType), ⟨c, answer⟩ =>
      match c.failure answer with
      | none => Created before path fileType after
      | some e => CreationRefused before path e after
  | none, ⟨.rename from_ to_, .ok ()⟩ => Renamed before from_ to_ after
  | none, ⟨.link from_ to_, .ok ()⟩ =>
      before (components to_) = none ∧ ∃ node, before (components from_) = some node ∧
        after = before.insert (components to_) node
  | none, ⟨.unlink path, .ok ()⟩ => after = before.erase (components path)
  | none, ⟨.rmdir path, .ok ()⟩ => after = before.erase (components path)
  | none, ⟨.openPath path flags _, .ok _⟩ =>
      after = before ∨ (flags &&& oCreat ≠ 0 ∧ Created before path sIfreg after)
  | none, _ => after = before

/-- A creating call creates the node or is refused. -/
theorem step_creates_iff {before after : Namespace} {event : HostEvent} {path : Bytes}
    {fileType : Nat} (creates : event.call.creates = some (path, fileType)) :
    Step before event after ↔
      (event.call.failure event.answer = none ∧ Created before path fileType after) ∨
        ∃ e, event.call.failure event.answer = some e ∧ CreationRefused before path e after := by
  obtain ⟨c, answer⟩ := event
  unfold Step
  simp only at creates
  rw [creates]
  cases failed : c.failure answer with
  | none => simp [failed]
  | some e => simp [failed]

/-- The log does not move the namespace. -/
theorem step_log_iff {before after : Namespace} {event : HostEvent}
    (logged : event.call.isLog = true) : Step before event after ↔ after = before := by
  obtain ⟨c, answer⟩ := event
  cases c <;> first | exact Iff.rfl | cases logged

theorem follows_hostEvents_iff {before after : Namespace} {t : HostTrace} :
    Follows Step before (hostEvents t) after ↔ Follows Step before t after :=
  NosqlFS.follows_hostEvents_iff fun _ _ _ logged => step_log_iff logged

end Namespace

end NosqlFS
