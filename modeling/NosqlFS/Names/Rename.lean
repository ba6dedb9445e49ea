import NosqlFS.Names.Namespace
import NosqlFS.Errors.SingleCall

/-!
# The flags of `rename`

libfuse forwards the flags of `renameat2`.  `nosqlFS_rename` logs them and calls
`rename`, which has none.
-/

namespace NosqlFS

open Interaction Text Paths

variable {s s' : ThreadLocal} {t : HostTrace} {reply : Int} {from_ to_ : Bytes} {flags : Nat}
  {before after : Namespace}

/-- What each flag asks of a rename that is reported as done, and that an error is
reported only for a namespace left alone. -/
structure HonoursFlags (before : Namespace) (from_ to_ : Bytes) (flags : Nat)
    (after : Namespace) (reply : Int) : Prop where
  plain : reply = 0 → flags = 0 → before.Renamed from_ to_ after
  noreplace : reply = 0 → flags &&& renameNoreplace ≠ 0 → before (components to_) = none
  exchange : reply = 0 → flags &&& renameExchange ≠ 0 → before.Exchanged from_ to_ after
  unknown : reply = 0 → flags < 4
  refused : reply ≠ 0 → after = before

/-- A flag word that a rename without flags happens to honour in this namespace. -/
def FlagsIdle (before : Namespace) (from_ to_ : Bytes) (flags : Nat) : Prop :=
  flags = 0 ∨ (flags = renameNoreplace ∧ before (components to_) = none) ∨
    flags = renameExchange ∧ before (components from_) = before (components to_)

/-- A run either renames on the host, or leaves the namespace and reports an error. -/
theorem nosqlFSRename_follows (run : Exec s (nosqlFSRename from_ to_ flags) t s' reply)
    (follows : Follows Namespace.Step before t after) :
    (failures t = [] ∧ reply = 0 ∧ before.Renamed from_ to_ after) ∨
      (failures t ≠ [] ∧ reply ≠ 0 ∧ after = before) := by
  obtain ⟨answer, made, replied⟩ :=
    loggedCall_hostEvents (fun _ _ _ _ _ => exec_status_iff) rfl run
  rw [← Namespace.follows_hostEvents_iff, made] at follows
  rw [← failures_hostEvents, made]
  have step : Namespace.Step before ⟨.rename from_ to_, answer⟩ after := by simpa using follows
  cases answer with
  | ok nothing => exact .inl ⟨rfl, replied.mpr rfl, step⟩
  | error e =>
      have nonzero : reply ≠ 0 := by
        intro zero
        cases replied.mp zero
      exact .inr ⟨List.cons_ne_nil _ _, nonzero, step⟩

/-- A rename leaves the names exchanged only if they named one node. -/
theorem Namespace.Renamed.exchanged_iff (renamed : before.Renamed from_ to_ after) :
    before.Exchanged from_ to_ after ↔
      before (components from_) = before (components to_) := by
  obtain ⟨present, effect⟩ := renamed
  split at effect
  · next same =>
      subst effect
      obtain ⟨node, found⟩ := Option.ne_none_iff_exists'.mp present
      have there : after (components to_) = some node := same.symm.trans found
      exact ⟨fun _ => same, fun _ => ⟨node, node, found, there, found, there⟩⟩
  · next differ =>
      obtain ⟨_, apart, rfl⟩ := effect
      constructor
      · rintro ⟨first, second, _, _, left, _⟩
        rw [before.move_source apart] at left
        cases left
      · intro same
        exact absurd same differ

/-- What a rename that succeeded owes its flags. -/
theorem Namespace.Renamed.honours_iff (renamed : before.Renamed from_ to_ after) :
    HonoursFlags before from_ to_ flags after 0 ↔ FlagsIdle before from_ to_ flags := by
  constructor
  · intro honours
    have small := honours.unknown rfl
    have absent := honours.noreplace rfl
    have swapped := honours.exchange rfl
    obtain rfl | rfl | rfl | rfl : flags = 0 ∨ flags = 1 ∨ flags = 2 ∨ flags = 3 := by omega
    · exact .inl rfl
    · exact .inr (.inl ⟨rfl, absent (by decide)⟩)
    · exact .inr (.inr ⟨rfl, renamed.exchanged_iff.mp (swapped (by decide))⟩)
    · obtain ⟨_, second, _, there, _⟩ := swapped (by decide)
      rw [absent (by decide)] at there
      cases there
  · rintro (rfl | ⟨rfl, absent⟩ | ⟨rfl, same⟩)
    · exact ⟨fun _ _ => renamed, fun _ bit => absurd rfl bit, fun _ bit => absurd rfl bit,
        fun _ => by decide, fun nonzero => absurd rfl nonzero⟩
    · exact ⟨fun _ zero => absurd zero (by decide), fun _ _ => absent,
        fun _ bit => absurd rfl bit, fun _ => by decide, fun nonzero => absurd rfl nonzero⟩
    · exact ⟨fun _ zero => absurd zero (by decide), fun _ bit => absurd rfl bit,
        fun _ _ => renamed.exchanged_iff.mpr same, fun _ => by decide,
        fun nonzero => absurd rfl nonzero⟩

/-- `rename` honours its flags exactly when the host refuses, or the flags ask for
nothing that a plain rename does not do here. -/
theorem rename_honours_iff (run : Exec s (nosqlFSRename from_ to_ flags) t s' reply)
    (follows : Follows Namespace.Step before t after) :
    HonoursFlags before from_ to_ flags after reply ↔
      failures t ≠ [] ∨ FlagsIdle before from_ to_ flags := by
  rcases nosqlFSRename_follows run follows with ⟨passed, rfl, renamed⟩ | ⟨failed, nonzero, kept⟩
  · rw [renamed.honours_iff]
    exact ⟨.inr, fun idle => idle.resolve_left (absurd passed)⟩
  · refine ⟨fun _ => .inl failed, fun _ => ⟨?_, ?_, ?_, ?_, fun _ => kept⟩⟩
    all_goals
      intro zero
      exact absurd zero nonzero

/-! ## Two runs -/

/-- `/a` is renamed to `/b` with the given flags, and the host agrees. -/
def renameTrace (flags : Nat) : HostTrace :=
  logEvents startThread.stream "nosqlFS_rename(from = \"%s\", to = \"%s\", flags = %u)\n"
      [.str (ascii "/a"), .str (ascii "/b"), .int flags] quietStep ++
    ⟨.rename (ascii "/a") (ascii "/b"), .ok ()⟩ ::
      retstatEvents startThread.stream "rename" 0 quietStep

theorem exec_rename (flags : Nat) :
    Exec startThread (nosqlFSRename (ascii "/a") (ascii "/b") flags) (renameTrace flags)
      startThread 0 :=
  (exec_loggedCall_iff fun _ _ _ _ _ => exec_status_iff).mpr
    ⟨quietStep, .ok (), quietStep, .inl ⟨rfl, rfl, rfl, rfl⟩⟩

/-- Two files, `/a` and `/b`. -/
def twoFiles : Namespace := fun path =>
  if path = [ascii "a"] then some ⟨1, sIfreg⟩
  else if path = [ascii "b"] then some ⟨2, sIfreg⟩
  else none

theorem twoFiles_follows (flags : Nat) :
    Follows Namespace.Step twoFiles (renameTrace flags)
      (twoFiles.move [ascii "a"] [ascii "b"]) := by
  rw [← Namespace.follows_hostEvents_iff]
  have made : hostEvents (renameTrace flags) = [⟨.rename (ascii "/a") (ascii "/b"), .ok ()⟩] := rfl
  have renamed : twoFiles.Renamed (ascii "/a") (ascii "/b")
      (twoFiles.move [ascii "a"] [ascii "b"]) := by
    have differ : ¬ twoFiles (components (ascii "/a")) = twoFiles (components (ascii "/b")) := by
      decide
    refine ⟨by decide, ?_⟩
    rw [if_neg differ]
    exact ⟨by decide, by decide, rfl⟩
  rw [made]
  exact .cons renamed (.nil _)

theorem plainRename_honours :
    HonoursFlags twoFiles (ascii "/a") (ascii "/b") 0 (twoFiles.move [ascii "a"] [ascii "b"]) 0 :=
  (rename_honours_iff (exec_rename 0) (twoFiles_follows 0)).mpr (.inr (.inl rfl))

/-- With `RENAME_NOREPLACE` the file at the new name is destroyed. -/
theorem rename_not_honoured :
    ¬ ∀ (from_ to_ : Bytes) (flags : Nat) (s s' : ThreadLocal) (t : HostTrace) (reply : Int)
      (before after : Namespace), Exec s (nosqlFSRename from_ to_ flags) t s' reply →
        Follows Namespace.Step before t after →
          HonoursFlags before from_ to_ flags after reply := by
  intro claim
  have honours := claim _ _ _ _ _ _ _ _ _ (exec_rename renameNoreplace)
    (twoFiles_follows renameNoreplace)
  have absent := honours.noreplace rfl (by decide)
  exact absurd absent (by decide)

end NosqlFS
