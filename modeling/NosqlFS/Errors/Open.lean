import NosqlFS.Runs.Files

/-!
# The verdict of `open`

`nosqlFS_open` opens the path on the host, dumps the file information to the log, and
only then tests the translated result against `-1`.  An error other than `EPERM`
passes this test, and `EPERM` is reported from an `errno` that the dump may replace.
-/

namespace NosqlFS

open Interaction Text

variable {s s' : ThreadLocal} {t : HostTrace} {reply : Int} {path : Bytes}
  {fi : Pointer FuseFileInfo}

/-- The reply is the host's verdict on opening the path with the client's flags. -/
def GrantsAsHost (path : Bytes) (fi : Pointer FuseFileInfo) (t : HostTrace) (reply : Int) : Prop :=
  ∃ answer later, hostEvents t = ⟨.openPath path fi.target.flags 0, answer⟩ :: later ∧
    reply = replyOf (failureOf answer)

/-- Writing the message of `log_error` keeps the error of a failed open, so that
`log_syscall` returns it negated. -/
def OpenErrorTranslated (t : HostTrace) : Prop :=
  ∀ e ∈ openFailures t, ∀ message ∈ messages t, message.format = errorFormat →
    message.effect.apply e.code = e.code

/-- The messages of the dump of the file information. -/
def fiMessages (t : HostTrace) : List Message :=
  (messages t).filter fun message => message.format ∈ fiFormats

/-- What the dump makes of an error number. -/
def dumpErrno (t : HostTrace) (errno : Int) : Int := errnoAfter (fiMessages t) errno

@[simp]
theorem fiMessages_append (t u : HostTrace) : fiMessages (t ++ u) = fiMessages t ++ fiMessages u := by
  unfold fiMessages
  rw [messages_append, List.filter_append]

/-- A run that dumps no file information. -/
theorem Dumps.fiMessages_eq_nil {formats : List String} (dumps : Dumps formats s t s')
    (other : ∀ format ∈ formats, format ∉ fiFormats) : fiMessages t = [] := by
  refine List.filter_eq_nil_iff.mpr fun message member => ?_
  have listed : message.format ∈ formats := dumps.sent ▸ List.mem_map_of_mem member
  simpa using other _ listed

theorem Dumps.fiMessages_eq (dumps : Dumps fiFormats s t s') : fiMessages t = messages t := by
  refine List.filter_eq_self.mpr fun message member => ?_
  have listed : message.format ∈ fiFormats := dumps.sent ▸ List.mem_map_of_mem member
  simpa using listed

@[simp]
theorem fiMessages_retstatEvents (stream : Nat) (func : String) (retstat : Int)
    (step : LogStep) : fiMessages (retstatEvents stream func retstat step) = [] := by
  simp [fiMessages, retstatFormat, fiFormats]

@[simp]
theorem fiMessages_errorEvents (stream : Nat) (func : String) (errno : Int) (text : Bytes)
    (step : LogStep) : fiMessages (errorEvents stream func errno text step) = [] := by
  simp [fiMessages, errorFormat, fiFormats]

/-! ## Runs -/

/-- The three ways through the handler after the host's answer. -/
theorem exec_nosqlFSOpen (run : Exec s (nosqlFSOpen path fi) t s' reply) :
    (∃ (fd : Nat) (closed : Except Errno Unit),
      hostEvents t = [⟨.openPath path fi.target.flags 0, .ok fd⟩, ⟨.close fd, closed⟩] ∧
        reply = 0) ∨
    ∃ (e : Errno) (error : Message), error ∈ messages t ∧ error.format = errorFormat ∧
      ((error.effect.apply e.code = 1 ∧
        hostEvents t = [⟨.openPath path fi.target.flags 0, .error e⟩] ∧
        reply = -dumpErrno t 1) ∨
      (error.effect.apply e.code ≠ 1 ∧ ∃ closed : Except Errno Unit,
        hostEvents t = [⟨.openPath path fi.target.flags 0, .error e⟩,
          ⟨.close (-error.effect.apply e.code), closed⟩] ∧
        reply = 0)) := by
  have opening : (HostCall.openPath path fi.target.flags 0).isLog = false := rfl
  have closing : ∀ fd, (HostCall.close fd).isLog = false := fun _ => rfl
  simp only [nosqlFSOpen, Program.bind_eq, Program.pure_eq] at run
  obtain ⟨t₁, _, s₁, _, rfl, message, afterEntry⟩ := exec_andThen_iff.mp run
  obtain ⟨t₂, _, s₂, opened, rfl, opens, afterOpen⟩ := exec_andThen_iff.mp afterEntry
  obtain ⟨t₃, _, s₃, retstat, rfl, logged, afterLog⟩ := exec_andThen_iff.mp afterOpen
  obtain ⟨t₄, t₅, s₄, _, rfl, dump, verdict⟩ := exec_andThen_iff.mp afterLog
  have entry := logMsg_dumps message
  have listed := logFi_dumps dump
  obtain ⟨answer, rfl, delivers⟩ := exec_openPath_iff.mp opens
  simp only [Delivers] at delivers
  obtain ⟨step, ⟨high, rfl, rfl, rfl⟩ | ⟨low, text, error, rfl, rfl, rfl⟩⟩ :=
    exec_logSyscall_iff.mp logged
  · rcases delivers with ⟨fd, rfl, rfl, rfl⟩ | ⟨e, rfl, rfl, rfl⟩
    · rw [if_neg (by omega), exec_andThen_iff] at verdict
      obtain ⟨_, _, _, _, rfl, closes, ended⟩ := verdict
      obtain ⟨closed, rfl, _⟩ := exec_close_iff.mp closes
      obtain ⟨rfl, _, rfl⟩ := exec_done_iff.mp ended
      refine .inl ⟨fd, closed, ?_, rfl⟩
      simp [hostEvents_cons, entry.noHostEvents, listed.noHostEvents, opening, closing]
    · exact absurd high (by decide)
  · rcases delivers with ⟨fd, rfl, rfl, rfl⟩ | ⟨e, rfl, rfl, rfl⟩
    · omega
    · rw [withErrno_errno] at verdict
      refine .inr ⟨e, ⟨errorFormat, error.effect⟩, by simp [messages_cons, messageOf], rfl, ?_⟩
      by_cases denied : error.effect.apply e.code = 1
      · have left : s₄.errno = errnoAfter (messages t₄) 1 := by
          rw [listed.register, withErrno_errno, withErrno_errno, withErrno_errno, denied]
        have earlier : fiMessages t₁ = [] := entry.fiMessages_eq_nil (by decide)
        rw [if_pos (by omega), exec_negatedErrno_iff] at verdict
        obtain ⟨rfl, rfl, rfl⟩ := verdict
        refine .inl ⟨denied, ?_, ?_⟩
        · simp [hostEvents_cons, entry.noHostEvents, listed.noHostEvents, opening]
        · have silent : ∀ u, fiMessages (⟨.openPath path fi.target.flags 0, .error e⟩ :: u) =
              fiMessages u := fun _ => rfl
          rw [left, dumpErrno]
          simp [earlier, silent, listed.fiMessages_eq]
      · rw [if_neg (by omega), exec_andThen_iff] at verdict
        obtain ⟨_, _, _, _, rfl, closes, ended⟩ := verdict
        obtain ⟨closed, rfl, _⟩ := exec_close_iff.mp closes
        obtain ⟨rfl, _, rfl⟩ := exec_done_iff.mp ended
        refine .inr ⟨denied, closed, ?_, rfl⟩
        simp [hostEvents_cons, entry.noHostEvents, listed.noHostEvents, opening, closing]

/-- The handler's reply is the host's verdict exactly when the host opens the path, or
refuses with `EPERM` and the dump leaves that in `errno`. -/
theorem open_grants_iff (run : Exec s (nosqlFSOpen path fi) t s' reply)
    (translated : OpenErrorTranslated t) :
    GrantsAsHost path fi t reply ↔
      ∀ e ∈ openFailures t, e = .eperm ∧ dumpErrno t e.code = e.code := by
  unfold GrantsAsHost
  rw [OpenErrorTranslated] at translated
  rw [← openFailures_hostEvents] at translated ⊢
  rcases exec_nosqlFSOpen run with ⟨fd, closed, made, rfl⟩ |
    ⟨e, error, sent, format, ⟨denied, made, rfl⟩ | ⟨passed, closed, made, rfl⟩⟩
  · rw [made]
    constructor
    · intro _ e member
      cases member
    · intro _
      exact ⟨.ok fd, _, rfl, rfl⟩
  · rw [made] at translated ⊢
    have kept := translated e (by simp [openFailures, openFailure, failureOf]) error sent format
    have code : e.code = 1 := by omega
    have permission : e = .eperm := Errno.ext code
    subst permission
    constructor
    · rintro ⟨answer, later, same, replied⟩ e member
      cases same
      obtain rfl := List.mem_singleton.mp member
      exact ⟨rfl, Int.neg_inj.mp replied⟩
    · intro condition
      obtain ⟨_, same⟩ := condition .eperm (by simp [openFailures, openFailure, failureOf])
      exact ⟨.error .eperm, [], rfl, congrArg Neg.neg same⟩
  · rw [made] at translated ⊢
    have failed : e ∈ openFailures [⟨.openPath path fi.target.flags 0, .error e⟩,
        ⟨.close (-error.effect.apply e.code), closed⟩] := by
      simp [openFailures, openFailure, failureOf]
    have kept := translated e failed error sent format
    have positive := e.positive
    constructor
    · rintro ⟨answer, later, same, replied⟩
      cases same
      simp only [failureOf, replyOf_some] at replied
      omega
    · intro condition
      have code : e.code = 1 := congrArg Errno.code (condition e failed).1
      omega

/-! ## Three runs -/

def openMessage : HostTrace :=
  logEvents startThread.stream "nosqlFS_open(path = \"%s\", fuse_file_info = 0x%08x)\n"
    [.str (ascii "/a"), .int 16] quietStep

/-- The dump of `plainFile`. -/
def plainDump : HostTrace :=
  (fiFormats.zip [[], [.int 0], [.int 0], [.int 0], [.int 0], [.int 0], [.int 0]]).flatMap
    fun message => logEvents startThread.stream message.1 message.2 quietStep

def grantedOpenTrace : HostTrace :=
  openMessage ++ ⟨.openPath (ascii "/a") 0 0, .ok 4⟩ ::
    (retstatEvents startThread.stream "open" 4 quietStep ++ plainDump ++ [⟨.close 4, .ok ()⟩])

theorem exec_grantedOpen :
    Exec startThread (nosqlFSOpen (ascii "/a") plainFile) grantedOpenTrace startThread 0 := by
  have replayed : run recording 0 (nosqlFSOpen (ascii "/a") plainFile) startThread
      grantedOpenTrace = some (0, startThread, []) := by rfl
  exact exec_of_recording replayed

/-- Opening a file is refused with `EPERM`. -/
def refusedOpenTrace : HostTrace :=
  openMessage ++ ⟨.openPath (ascii "/a") 0 0, .error .eperm⟩ ::
    (retstatEvents startThread.stream "open" (-1) quietStep ++
      errorEvents startThread.stream "open" 1 (ascii "Operation not permitted") quietStep ++
      plainDump)

theorem exec_refusedOpen :
    Exec startThread (nosqlFSOpen (ascii "/a") plainFile) refusedOpenTrace
      (startThread.withErrno 1) (-1) := by
  have replayed : run recording 0 (nosqlFSOpen (ascii "/a") plainFile) startThread
      refusedOpenTrace = some (-1, startThread.withErrno 1, []) := by rfl
  exact exec_of_recording replayed

theorem grantedOpen_grants : GrantsAsHost (ascii "/a") plainFile grantedOpenTrace 0 ∧
    GrantsAsHost (ascii "/a") plainFile refusedOpenTrace (-1) := by
  have granted : openFailures grantedOpenTrace = [] := by rfl
  have refused : openFailures refusedOpenTrace = [.eperm] := by rfl
  have quiet : ∀ message ∈ messages refusedOpenTrace, message.effect = .keep := by
    simp [refusedOpenTrace, openMessage, plainDump, fiFormats, messages_cons, messageOf, quietStep]
  constructor
  · refine (open_grants_iff exec_grantedOpen ?_).mpr ?_
    · intro e member
      rw [granted] at member
      cases member
    · intro e member
      rw [granted] at member
      cases member
  · refine (open_grants_iff exec_refusedOpen ?_).mpr ?_
    · intro e _ message member _
      rw [quiet message member, ErrnoEffect.apply_keep]
    · intro e member
      rw [refused] at member
      obtain rfl := List.mem_singleton.mp member
      exact ⟨rfl, by decide +kernel⟩

/-- Opening a file that does not exist goes on to close descriptor `-2`. -/
def missingOpenTrace : HostTrace :=
  openMessage ++ ⟨.openPath (ascii "/a") 0 0, .error .enoent⟩ ::
    (retstatEvents startThread.stream "open" (-1) quietStep ++
      errorEvents startThread.stream "open" 2 (ascii "No such file or directory") quietStep ++
      plainDump ++ [⟨.close (-2), .error .ebadf⟩])

theorem exec_missingOpen :
    Exec startThread (nosqlFSOpen (ascii "/a") plainFile) missingOpenTrace
      (startThread.withErrno 9) 0 := by
  have replayed : run recording 0 (nosqlFSOpen (ascii "/a") plainFile) startThread
      missingOpenTrace = some (0, startThread.withErrno 9, []) := by rfl
  exact exec_of_recording replayed

/-- Opening a file that does not exist is granted. -/
theorem open_not_granted :
    ¬ ∀ (path : Bytes) (fi : Pointer FuseFileInfo) (s s' : ThreadLocal) (t : HostTrace)
      (reply : Int), Exec s (nosqlFSOpen path fi) t s' reply → OpenErrorTranslated t →
        GrantsAsHost path fi t reply := by
  intro claim
  have translated : OpenErrorTranslated missingOpenTrace := by
    have quiet : ∀ message ∈ messages missingOpenTrace, message.effect = .keep := by
      simp [missingOpenTrace, openMessage, plainDump, fiFormats, messages_cons, messageOf,
        quietStep]
    intro e _ message member _
    rw [quiet message member, ErrnoEffect.apply_keep]
  obtain ⟨answer, later, made, replied⟩ := claim _ _ _ _ _ _ exec_missingOpen translated
  have first : hostEvents missingOpenTrace =
      [⟨.openPath (ascii "/a") 0 0, .error .enoent⟩, ⟨.close (-2), .error .ebadf⟩] := by rfl
  rw [first] at made
  cases made
  cases replied

end NosqlFS
