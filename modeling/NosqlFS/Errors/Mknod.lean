import NosqlFS.Names.Namespace
import NosqlFS.Runs.Files

/-!
# Creation by `mknod`

`nosqlFS_mknod` creates a node in one of three ways, one of which needs a second call.
The final test compares a translated result with `-1`, so that of all errors only
`EPERM` is reported.
-/

namespace NosqlFS

open Interaction Text Paths

variable {s s' : ThreadLocal} {t : HostTrace} {reply : Int} {path : Bytes} {mode rdev : Nat}
  {before after : Namespace}

/-! ## What creation should report -/

/-- Success is creation by this call, a failed call is reported with its error, a failed
creation changes nothing, and an existing path is reported as such. -/
structure TruthfulCreation (before : Namespace) (path : Bytes) (mode : Nat) (t : HostTrace)
    (after : Namespace) (reply : Int) : Prop where
  created : reply = 0 → failures t = [] ∧ before.Created path (typeOf mode) after
  reported : ∀ e ∈ failures t, reply = -e.code
  unchanged : ∀ event ∈ t, event.call.creates.isSome = true →
    event.call.failure event.answer ≠ none → after = before
  exclusive : before (components path) ≠ none → reply = -Errno.eexist.code

/-! ## Runs -/

/-- The reply the handler makes of the failures of its calls. -/
def mknodReply : List Errno → Int
  | [] => 0
  | e :: _ => if e.code = 1 then -1 else 0

/-- One creating call, and after a success at most a `close`. -/
inductive CreatingCalls (path : Bytes) (mode : Nat) : HostTrace → Prop where
  | once (event : HostEvent) (creates : event.call.creates = some (path, typeOf mode)) :
      CreatingCalls path mode [event]
  | closed (event : HostEvent) (creates : event.call.creates = some (path, typeOf mode))
      (passed : event.call.failure event.answer = none) (fd : Int)
      (answer : Except Errno Unit) : CreatingCalls path mode [event, ⟨.close fd, answer⟩]

/-- A translated result next to the failures it comes from. -/
def Translated (failed : List Errno) (s : ThreadLocal) (retstat : Int) : Prop :=
  (failed = [] ∧ 0 ≤ retstat) ∨ ∃ e, failed = [e] ∧ s.errno = e.code ∧ retstat = -e.code

theorem Delivers.translated {α : Type} {value : α → Int} {answer : Except Errno α}
    {retstat : Int} (natural : ∀ got, 0 ≤ value got)
    (delivers : Delivers value (fun e => -e.code) s answer s' retstat) :
    Translated (failureOf answer).toList s' retstat := by
  rcases delivers with ⟨got, rfl, rfl, rfl⟩ | ⟨e, rfl, rfl, rfl⟩
  · exact .inl ⟨rfl, natural got⟩
  · exact .inr ⟨e, rfl, rfl, rfl⟩

/-- The final test, on a translated result. -/
theorem Translated.verdict {failed : List Errno} {retstat : Int}
    (translated : Translated failed s retstat)
    (run : Exec s (if retstat = -1 then getErrno.andThen fun errno => .done (-errno)
      else .done 0 : Handler Int) t s' reply) :
    t = [] ∧ reply = mknodReply failed := by
  rcases translated with ⟨rfl, natural⟩ | ⟨e, rfl, stored, rfl⟩
  · rw [if_neg (by omega), exec_done_iff] at run
    exact ⟨run.1, run.2.2⟩
  · by_cases denied : e.code = 1
    · rw [if_pos (by omega), exec_negatedErrno_iff] at run
      refine ⟨run.1, ?_⟩
      rw [run.2.2, stored, mknodReply, if_pos denied, denied]
    · rw [if_neg (by omega), exec_done_iff] at run
      refine ⟨run.1, ?_⟩
      rw [run.2.2, mknodReply, if_neg denied]

/-- A status call with its result logged. -/
theorem loggedStatus_run {c : HostCall} {next : c.Answer → Handler Int} {func : String}
    {outcome : c.Answer → Except Errno Unit} {retstat : Int}
    (follows : ∀ answer, next answer = fromHost (fun _ => 0) (outcome answer))
    (reports : ∀ answer, c.failure answer = failureOf (outcome answer)) (host : c.isLog = false)
    (run : Exec s ((Program.call c next).andThen fun made => logSyscall func made 0) t s' retstat)
    (quiet : LogsKeepErrno t) :
    ∃ answer, hostEvents t = [⟨c, answer⟩] ∧ Translated (failures t) s' retstat := by
  obtain ⟨_, t₂, s₁, made, rfl, called, logged⟩ := exec_andThen_iff.mp run
  obtain ⟨answer, rfl, delivers⟩ := (exec_hostCall_iff follows).mp called
  obtain ⟨silent, delivered⟩ :=
    delivers.logged (fun _ _ => Int.le_refl 0) logged (logsKeepErrno_append.mp quiet).2
  have whole : hostEvents ([⟨c, answer⟩] ++ t₂) = [⟨c, answer⟩] := by
    simp [hostEvents_cons, host, silent]
  rw [← failures_hostEvents, whole, failures_cons, failures_nil, List.append_nil, reports]
  exact ⟨answer, rfl, delivered.translated fun _ => Int.le_refl 0⟩

/-- The branch for a regular file. -/
theorem regularFile_run {retstat : Int}
    (run : Exec s ((openPath path (oCreat ||| oExcl ||| oWronly) mode).andThen fun opened =>
      (logSyscall "open" opened 0).andThen fun retstat =>
        if 0 ≤ retstat then (close retstat).andThen fun closed => logSyscall "close" closed 0
        else .done retstat) t s' retstat)
    (regular : sIsreg mode) (quiet : LogsKeepErrno t) :
    CreatingCalls path mode (hostEvents t) ∧ Translated (failures t) s' retstat := by
  have opening : (HostCall.openPath path (oCreat ||| oExcl ||| oWronly) mode).isLog = false := rfl
  have creates : (HostCall.openPath path (oCreat ||| oExcl ||| oWronly) mode).creates =
      some (path, typeOf mode) := by
    have kind : typeOf mode = sIfreg := by
      unfold typeOf
      rw [show mode &&& sIfmt = sIfreg from regular]
      rfl
    rw [kind]
    rfl
  obtain ⟨_, _, s₁, opened, rfl, opens, afterOpen⟩ := exec_andThen_iff.mp run
  obtain ⟨t₂, t₃, s₂, middle, rfl, logged, afterLog⟩ := exec_andThen_iff.mp afterOpen
  simp only [logsKeepErrno_append] at quiet
  obtain ⟨answer, rfl, delivers⟩ := exec_openPath_iff.mp opens
  obtain ⟨silent, translated⟩ :=
    delivers.logged (fun got _ => Int.natCast_nonneg got) logged quiet.2.1
  have whole : hostEvents ([⟨.openPath path (oCreat ||| oExcl ||| oWronly) mode, answer⟩] ++
      (t₂ ++ t₃)) =
      ⟨.openPath path (oCreat ||| oExcl ||| oWronly) mode, answer⟩ :: hostEvents t₃ := by
    simp [hostEvents_cons, opening, silent]
  rw [← failures_hostEvents, whole, failures_cons, failures_hostEvents]
  rcases translated with ⟨fd, rfl, rfl, rfl⟩ | ⟨e, rfl, rfl, rfl⟩
  · rw [if_pos (Int.natCast_nonneg fd)] at afterLog
    obtain ⟨closed, closes, outcome⟩ :=
      loggedStatus_run (fun _ => rfl) (fun _ => rfl) rfl afterLog quiet.2.2
    rw [closes]
    exact ⟨.closed _ creates rfl fd closed, outcome⟩
  · have negative : ¬ 0 ≤ -e.code := by
      have positive := e.positive
      omega
    rw [if_neg negative, exec_done_iff] at afterLog
    obtain ⟨rfl, rfl, rfl⟩ := afterLog
    exact ⟨.once _ creates, .inr ⟨e, rfl, rfl, rfl⟩⟩

/-- Every run creates once and replies by the final test of its failures. -/
theorem exec_nosqlFSMknod (run : Exec s (nosqlFSMknod path mode rdev) t s' reply)
    (quiet : LogsKeepErrno t) :
    CreatingCalls path mode (hostEvents t) ∧ reply = mknodReply (failures t) := by
  simp only [nosqlFSMknod, Program.bind_eq, Program.pure_eq] at run
  obtain ⟨t₁, _, s₁, _, rfl, message, afterEntry⟩ := exec_andThen_iff.mp run
  obtain ⟨t₂, t₃, s₂, retstat, rfl, branch, verdict⟩ := exec_andThen_iff.mp afterEntry
  simp only [logsKeepErrno_append] at quiet
  have entry := (logMsg_silent message quiet.1).noHostEvents
  have branched : CreatingCalls path mode (hostEvents t₂) ∧
      Translated (failures t₂) s₂ retstat := by
    unfold mknodBranches at branch
    by_cases regular : sIsreg mode
    · rw [if_pos regular] at branch
      exact regularFile_run branch regular quiet.2.1
    · rw [if_neg regular] at branch
      by_cases fifo : sIsfifo mode
      · rw [if_pos fifo] at branch
        have creates : (HostCall.mkfifo path mode).creates = some (path, typeOf mode) := by
          have kind : typeOf mode = sIfifo := by
            unfold typeOf
            rw [show mode &&& sIfmt = sIfifo from fifo]
            rfl
          rw [kind]
          rfl
        obtain ⟨answer, made, outcome⟩ :=
          loggedStatus_run (fun _ => rfl) (fun _ => rfl) rfl branch quiet.2.1
        rw [made]
        exact ⟨.once _ creates, outcome⟩
      · rw [if_neg fifo] at branch
        obtain ⟨answer, made, outcome⟩ :=
          loggedStatus_run (fun _ => rfl) (fun _ => rfl) rfl branch quiet.2.1
        rw [made]
        exact ⟨.once _ rfl, outcome⟩
  obtain ⟨rfl, rfl⟩ := branched.2.verdict verdict
  rw [hostEvents_append, hostEvents_append, entry, hostEvents_nil, List.append_nil,
    List.nil_append, failures_append, failures_append, ← failures_hostEvents t₁, entry,
    failures_nil, List.nil_append, List.append_nil]
  exact ⟨branched.1, rfl⟩

/-! ## Truthfulness -/

/-- Where the namespace goes when the creating call succeeds, and when it fails. -/
theorem CreatingCalls.follows {calls : HostTrace} (creating : CreatingCalls path mode calls)
    (follows : Follows Namespace.Step before calls after) :
    (before.Created path (typeOf mode) after ∧
      ∀ event ∈ calls, event.call.creates.isSome = true →
        event.call.failure event.answer = none) ∨
    ∃ e, failures calls = [e] ∧ before.CreationRefused path e after := by
  cases creating with
  | once event creates =>
      have step : Namespace.Step before event after := by simpa using follows
      rcases (Namespace.step_creates_iff creates).mp step with ⟨passed, made⟩ | ⟨e, failed, refused⟩
      · refine .inl ⟨made, fun other member _ => ?_⟩
        rw [List.mem_singleton.mp member, passed]
      · exact .inr ⟨e, by simp [failures_cons, failed], refused⟩
  | closed event creates passed fd answer =>
      obtain ⟨middle, step, closes⟩ := by simpa using follows
      have same : after = middle := closes
      subst same
      rcases (Namespace.step_creates_iff creates).mp step with ⟨_, made⟩ | ⟨e, failed, _⟩
      · refine .inl ⟨made, fun other member isSome => ?_⟩
        rcases List.mem_cons.mp member with rfl | member
        · exact passed
        · rw [List.mem_singleton.mp member] at isSome
          cases isSome
      · rw [passed] at failed
        cases failed

/-- The final test reports failures that are all `EPERM`. -/
theorem mknodReply_of_eperm {failed : List Errno} (only : ∀ e ∈ failed, e = .eperm) :
    mknodReply failed = replyOf failed.head? := by
  cases failed with
  | nil => rfl
  | cons e rest =>
      obtain rfl := only e List.mem_cons_self
      rfl

/-- The final test reports no other error. -/
theorem eperm_of_mknodReply {failed : List Errno} {e : Errno} (member : e ∈ failed)
    (reported : mknodReply failed = -e.code) : e = .eperm := by
  have positive := e.positive
  unfold mknodReply at reported
  split at reported
  · cases member
  · split at reported
    · exact Errno.ext (Int.neg_inj.mp reported.symm)
    · omega

/-- Among failures that are all `EPERM`, a zero reply means none. -/
theorem eq_nil_of_mknodReply {failed : List Errno} (only : ∀ e ∈ failed, e = .eperm)
    (succeeded : mknodReply failed = 0) : failed = [] := by
  rw [mknodReply_of_eperm only] at succeeded
  cases failed with
  | nil => rfl
  | cons e rest =>
      have positive := e.positive
      rw [List.head?_cons, replyOf_some] at succeeded
      omega

/-- `mknod` reports creation truthfully exactly when its calls fail with no error but
`EPERM`. -/
theorem mknod_truthful_iff (run : Exec s (nosqlFSMknod path mode rdev) t s' reply)
    (quiet : LogsKeepErrno t) (follows : Follows Namespace.Step before t after) :
    TruthfulCreation before path mode t after reply ↔ ∀ e ∈ failures t, e = .eperm := by
  obtain ⟨creating, rfl⟩ := exec_nosqlFSMknod run quiet
  have moved := creating.follows (Namespace.follows_hostEvents_iff.mpr follows)
  rw [failures_hostEvents] at moved
  constructor
  · intro truthful e member
    exact eperm_of_mknodReply member (truthful.reported e member)
  · intro only
    refine ⟨fun succeeded => ?_, fun e member => ?_, fun event member isSome failed => ?_,
      fun present => ?_⟩
    · have none := eq_nil_of_mknodReply only succeeded
      rcases moved with ⟨made, _⟩ | ⟨e, found, _⟩
      · exact ⟨none, made⟩
      · rw [none] at found
        cases found
    · obtain rfl := only e member
      cases found : failures t with
      | nil =>
          rw [found] at member
          cases member
      | cons first rest =>
          have same := only first (found ▸ List.mem_cons_self)
          rw [mknodReply, same]
          rfl
    · rcases moved with ⟨_, passed⟩ | ⟨_, _, refused⟩
      · have host : event ∈ hostEvents t :=
          mem_hostEvents_iff.mpr ⟨member, HostCall.not_isLog_of_creates isSome⟩
        exact absurd (passed event host isSome) failed
      · exact refused.1
    · rcases moved with ⟨made, _⟩ | ⟨e, found, refused⟩
      · exact absurd made.1 present
      · have denied := only e (found ▸ List.mem_cons_self)
        rw [refused.2 present] at denied
        cases denied

/-! ## Two runs -/

def mknodMessage (mode : Nat) : HostTrace :=
  logEvents startThread.stream "nosqlFS_mknod(path = \"%s\", mode = 0%3o, dev = %lld)\n"
    [.str (ascii "/a"), .int mode, .int 0] quietStep

/-- `0100644`, a regular file. -/
def regularMode : Nat := 33188

def newFileTrace : HostTrace :=
  mknodMessage regularMode ++
    ⟨.openPath (ascii "/a") (oCreat ||| oExcl ||| oWronly) regularMode, .ok 4⟩ ::
      (retstatEvents startThread.stream "open" 4 quietStep ++
        ⟨.close 4, .ok ()⟩ :: retstatEvents startThread.stream "close" 0 quietStep)

theorem exec_newFile :
    Exec startThread (nosqlFSMknod (ascii "/a") regularMode 0) newFileTrace startThread 0 := by
  have replayed : run recording 0 (nosqlFSMknod (ascii "/a") regularMode 0) startThread
      newFileTrace = some (0, startThread, []) := by rfl
  exact exec_of_recording replayed

/-- The lock file is there already. -/
def lockHeldTrace : HostTrace :=
  mknodMessage regularMode ++
    ⟨.openPath (ascii "/a") (oCreat ||| oExcl ||| oWronly) regularMode, .error .eexist⟩ ::
      (retstatEvents startThread.stream "open" (-1) quietStep ++
        errorEvents startThread.stream "open" 17 (ascii "File exists") quietStep)

theorem exec_lockHeld :
    Exec startThread (nosqlFSMknod (ascii "/a") regularMode 0) lockHeldTrace
      (startThread.withErrno 17) 0 := by
  have replayed : run recording 0 (nosqlFSMknod (ascii "/a") regularMode 0) startThread
      lockHeldTrace = some (0, startThread.withErrno 17, []) := by rfl
  exact exec_of_recording replayed

def emptyNamespace : Namespace := fun _ => none

theorem newFile_truthful :
    TruthfulCreation emptyNamespace (ascii "/a") regularMode newFileTrace
      (emptyNamespace.insert [ascii "a"] ⟨1, sIfreg⟩) 0 := by
  have quiet : LogsKeepErrno newFileTrace := by
    simp [LogsKeepErrno, newFileTrace, mknodMessage, messages_cons, messageOf, quietStep]
  have follows : Follows Namespace.Step emptyNamespace newFileTrace
      (emptyNamespace.insert [ascii "a"] ⟨1, sIfreg⟩) := by
    rw [← Namespace.follows_hostEvents_iff]
    have calls : hostEvents newFileTrace =
        [⟨.openPath (ascii "/a") (oCreat ||| oExcl ||| oWronly) regularMode, .ok 4⟩,
          ⟨.close 4, .ok ()⟩] := by rfl
    rw [calls]
    have created : emptyNamespace.Created (ascii "/a") sIfreg
        (emptyNamespace.insert [ascii "a"] ⟨1, sIfreg⟩) := ⟨rfl, ⟨1, sIfreg⟩, rfl, rfl⟩
    exact .cons created (.cons rfl (.nil _))
  have none : failures newFileTrace = [] := by rfl
  refine (mknod_truthful_iff exec_newFile quiet follows).mpr fun e member => ?_
  rw [none] at member
  cases member

/-- Exclusive creation of an existing file succeeds. -/
theorem mknod_not_truthful :
    ¬ ∀ (path : Bytes) (mode rdev : Nat) (s s' : ThreadLocal) (t : HostTrace) (reply : Int)
      (before after : Namespace), Exec s (nosqlFSMknod path mode rdev) t s' reply →
        LogsKeepErrno t → Follows Namespace.Step before t after →
          TruthfulCreation before path mode t after reply := by
  intro claim
  let held : Namespace := emptyNamespace.insert [ascii "a"] ⟨1, sIfreg⟩
  have quiet : LogsKeepErrno lockHeldTrace := by
    simp [LogsKeepErrno, lockHeldTrace, mknodMessage, messages_cons, messageOf, quietStep]
  have calls : hostEvents lockHeldTrace =
      [⟨.openPath (ascii "/a") (oCreat ||| oExcl ||| oWronly) regularMode, .error .eexist⟩] := by
    rfl
  have follows : Follows Namespace.Step held lockHeldTrace held := by
    rw [← Namespace.follows_hostEvents_iff, calls]
    have refused : held.CreationRefused (ascii "/a") .eexist held := ⟨rfl, fun _ => rfl⟩
    exact .cons refused (.nil _)
  have truthful := claim _ _ _ _ _ _ _ _ _ exec_lockHeld quiet follows
  have present : held (components (ascii "/a")) ≠ none := by
    have inserted : held [ascii "a"] = some ⟨1, sIfreg⟩ := emptyNamespace.insert_self
    have named : components (ascii "/a") = [ascii "a"] := by decide
    rw [named, inserted]
    exact Option.some_ne_none _
  exact absurd (truthful.exclusive present) (by decide)

end NosqlFS
