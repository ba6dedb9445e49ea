import NosqlFS.Source.Main

/-!
# Reading a trace

Projections of a trace of host calls: the calls other than those of the log, the
failures the host reported, and what the log messages did to `errno`.
-/

namespace NosqlFS

open Interaction Text

/-! ## Calls of the log -/

def HostCall.isLog : HostCall → Bool
  | .time => true
  | .localtime _ => true
  | .strftime _ => true
  | .fputs _ => true
  | .vfprintf .. => true
  | .strerror _ => true
  | _ => false

/-- The part of a trace that is not logging. -/
def hostEvents (t : HostTrace) : HostTrace := t.filter fun event => !event.call.isLog

@[simp]
theorem hostEvents_nil : hostEvents [] = [] := rfl

@[simp]
theorem hostEvents_append (t u : HostTrace) :
    hostEvents (t ++ u) = hostEvents t ++ hostEvents u := List.filter_append ..

theorem hostEvents_cons (event : HostEvent) (t : HostTrace) :
    hostEvents (event :: t) = if event.call.isLog then hostEvents t else event :: hostEvents t := by
  cases logged : event.call.isLog <;> simp [hostEvents, logged]

theorem mem_hostEvents_iff {event : HostEvent} {t : HostTrace} :
    event ∈ hostEvents t ↔ event ∈ t ∧ event.call.isLog = false := by
  simp [hostEvents]

/-- What is read off the other calls alone. -/
theorem filterMap_hostEvents {β : Type} {f : HostEvent → Option β} {t : HostTrace}
    (silent : ∀ event : HostEvent, event.call.isLog = true → f event = none) :
    (hostEvents t).filterMap f = t.filterMap f := by
  induction t with
  | nil => rfl
  | cons event t ih =>
      rw [hostEvents_cons]
      split
      · next logged => rw [ih, List.filterMap_cons_none (silent event logged)]
      · rw [List.filterMap_cons, List.filterMap_cons, ih]

/-! ## Failures -/

def failureOf {α : Type} : Except Errno α → Option Errno
  | .ok _ => none
  | .error e => some e

/-- The error a host call was answered with. -/
def HostCall.failure : (c : HostCall) → c.Answer → Option Errno
  | .lstat .., answer => failureOf answer
  | .access .., answer => failureOf answer
  | .opendir _, answer => failureOf answer
  | .readdir _, .failed e => some e
  | .closedir _, answer => failureOf answer
  | .readlink .., answer => failureOf answer
  | .openPath .., answer => failureOf answer
  | .close _, answer => failureOf answer
  | .mkfifo .., answer => failureOf answer
  | .mknod .., answer => failureOf answer
  | .mkdir .., answer => failureOf answer
  | .unlink _, answer => failureOf answer
  | .rmdir _, answer => failureOf answer
  | .symlink .., answer => failureOf answer
  | .rename .., answer => failureOf answer
  | .link .., answer => failureOf answer
  | .chmod .., answer => failureOf answer
  | .lchown .., answer => failureOf answer
  | .truncate .., answer => failureOf answer
  | .pread .., answer => failureOf answer
  | .pwrite .., answer => failureOf answer
  | .statvfs .., answer => failureOf answer
  | .realpath _, answer => failureOf answer
  | .fopen .., answer => failureOf answer
  | _, _ => none

/-- The failures of a run, in order. -/
def failures (t : HostTrace) : List Errno :=
  t.filterMap fun event => event.call.failure event.answer

@[simp]
theorem failures_nil : failures [] = [] := rfl

@[simp]
theorem failures_append (t u : HostTrace) : failures (t ++ u) = failures t ++ failures u :=
  List.filterMap_append

theorem failures_cons (event : HostEvent) (t : HostTrace) :
    failures (event :: t) = (event.call.failure event.answer).toList ++ failures t := by
  cases failed : event.call.failure event.answer <;> simp [failures, failed]

/-- A call of the log reports no error. -/
theorem failure_of_isLog {c : HostCall} (logged : c.isLog = true) (answer : c.Answer) :
    c.failure answer = none := by
  cases c <;> first | rfl | cases logged

@[simp]
theorem failures_hostEvents (t : HostTrace) : failures (hostEvents t) = failures t :=
  filterMap_hostEvents fun event logged => failure_of_isLog logged event.answer

/-- A world that the log does not move follows a run as it follows the other calls. -/
theorem follows_hostEvents_iff {World : Type} {step : World → HostEvent → World → Prop}
    (still : ∀ w event w', event.call.isLog = true → (step w event w' ↔ w' = w)) {w w' : World}
    {t : HostTrace} : Follows step w (hostEvents t) w' ↔ Follows step w t w' := by
  induction t generalizing w with
  | nil => exact Iff.rfl
  | cons event t ih =>
      rw [hostEvents_cons]
      split
      · next logged => simp [ih, still _ _ _ logged]
      · simp [ih]

/-! ## Messages -/

/-- A message in a trace: its format and what writing it did to `errno`. -/
structure Message where
  format : String
  effect : ErrnoEffect

def messageOf : HostEvent → Option Message
  | ⟨.vfprintf _ format _, effect⟩ => some ⟨format, effect⟩
  | _ => none

def messages (t : HostTrace) : List Message := t.filterMap messageOf

@[simp]
theorem messages_nil : messages [] = [] := rfl

@[simp]
theorem messages_append (t u : HostTrace) : messages (t ++ u) = messages t ++ messages u :=
  List.filterMap_append

theorem messages_cons (event : HostEvent) (t : HostTrace) :
    messages (event :: t) = (messageOf event).toList ++ messages t := by
  cases found : messageOf event <;> simp [messages, found]

/-- Every message of the run leaves `errno` as it was. -/
def LogsKeepErrno (t : HostTrace) : Prop := ∀ message ∈ messages t, message.effect = .keep

@[simp]
theorem logsKeepErrno_append {t u : HostTrace} :
    LogsKeepErrno (t ++ u) ↔ LogsKeepErrno t ∧ LogsKeepErrno u := by
  simp only [LogsKeepErrno, messages_append, List.mem_append, or_imp, forall_and]

/-! ## Replies -/

/-- The FUSE convention: zero, or the negated error number. -/
def replyOf : Option Errno → Int
  | none => 0
  | some e => -e.code

@[simp]
theorem replyOf_none : replyOf none = 0 := rfl

@[simp]
theorem replyOf_some (e : Errno) : replyOf (some e) = -e.code := rfl

end NosqlFS
