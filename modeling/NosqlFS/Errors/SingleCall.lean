import NosqlFS.Runs.Logging

/-!
# Handlers made of one system call

Twelve handlers make a single system call and answer with its outcome.  The run of
each is characterised once, and the reply is compared with the outcome of the call
for every effect that writing the log may have on `errno`.
-/

namespace NosqlFS

open Interaction Text

variable {s s' : ThreadLocal} {t : HostTrace} {reply : Int}

/-! ## Runs -/

/-- A call whose answer is zero, or `-1` with `errno` set. -/
def ReportsStatus (c : HostCall) (next : c.Answer → Handler Int) : Prop :=
  ∀ answer s t s' result, Exec s (next answer) t s' result ↔ t = [] ∧
    ((c.failure answer = none ∧ s' = s ∧ result = 0) ∨
      ∃ e, c.failure answer = some e ∧ s' = s.withErrno e.code ∧ result = -1)

theorem exec_status_iff {α : Type} {answer : Except Errno α} {result : Int} :
    Exec s (fromHost (fun _ => 0) answer) t s' result ↔ t = [] ∧
      ((failureOf answer = none ∧ s' = s ∧ result = 0) ∨
        ∃ e, failureOf answer = some e ∧ s' = s.withErrno e.code ∧ result = -1) := by
  rw [exec_fromHost_iff]
  cases answer with
  | ok got => simp [failureOf]
  | error e => simp [failureOf]

/-- The complete runs of a logged system call. -/
theorem exec_loggedCall_iff {c : HostCall} {next : c.Answer → Handler Int}
    (status : ReportsStatus c next) {format func : String} {args : List Arg} :
    Exec s (loggedCall format args func (.call c next)) t s' reply ↔
      ∃ entry answer retstat,
        (c.failure answer = none ∧
          t = logEvents s.stream format args entry ++
            ⟨c, answer⟩ :: retstatEvents s.stream func 0 retstat ∧
          s' = s.withErrno (entry.effect.apply s.errno) ∧ reply = 0) ∨
        ∃ e text error, c.failure answer = some e ∧
          t = logEvents s.stream format args entry ++ ⟨c, answer⟩ ::
            (retstatEvents s.stream func (-1) retstat ++
              errorEvents s.stream func e.code text error) ∧
          s' = s.withErrno (error.effect.apply e.code) ∧
          reply = -error.effect.apply e.code := by
  simp only [loggedCall, Program.bind_eq, Program.call_andThen, exec_andThen_iff, exec_logMsg_iff,
    exec_call_iff, exec_logSyscall_iff]
  constructor
  · rintro ⟨_, _, _, _, rfl, ⟨entry, rfl, rfl⟩, answer, _, rfl, _, _, _, _, rfl, called,
      retstat, outcome⟩
    obtain ⟨rfl, ⟨passed, rfl, rfl⟩ | ⟨e, failed, rfl, rfl⟩⟩ := (status ..).mp called
    · obtain ⟨_, rfl, rfl, rfl⟩ | ⟨impossible, _⟩ := outcome
      · exact ⟨entry, answer, retstat, .inl ⟨passed, rfl, rfl, rfl⟩⟩
      · exact absurd impossible (by decide)
    · obtain ⟨impossible, _⟩ | ⟨_, text, error, rfl, rfl, rfl⟩ := outcome
      · exact absurd impossible (by decide)
      · exact ⟨entry, answer, retstat, .inr ⟨e, text, error, failed, rfl, rfl, rfl⟩⟩
  · rintro ⟨entry, answer, retstat, ⟨passed, rfl, rfl, rfl⟩ | ⟨e, text, error, failed, rfl, rfl, rfl⟩⟩
    · exact ⟨_, _, _, (), rfl, ⟨entry, rfl, rfl⟩, answer, _, rfl, [], _, _, _, rfl,
        (status ..).mpr ⟨rfl, .inl ⟨passed, rfl, rfl⟩⟩, retstat,
        .inl ⟨by decide, rfl, rfl, rfl⟩⟩
    · exact ⟨_, _, _, (), rfl, ⟨entry, rfl, rfl⟩, answer, _, rfl, [], _, _, _, rfl,
        (status ..).mpr ⟨rfl, .inr ⟨e, failed, rfl, rfl⟩⟩, retstat,
        .inr ⟨by decide, text, error, rfl, rfl, rfl⟩⟩

/-- What a logged system call shows the host, and whether its reply is zero. -/
theorem loggedCall_hostEvents {c : HostCall} {next : c.Answer → Handler Int}
    (status : ReportsStatus c next) (host : c.isLog = false) {format func : String}
    {args : List Arg} (run : Exec s (loggedCall format args func (.call c next)) t s' reply) :
    ∃ answer, hostEvents t = [⟨c, answer⟩] ∧ (reply = 0 ↔ c.failure answer = none) := by
  obtain ⟨entry, answer, retstat, ⟨passed, rfl, rfl, rfl⟩ |
    ⟨e, text, error, failed, rfl, rfl, rfl⟩⟩ := (exec_loggedCall_iff status).mp run
  · exact ⟨answer, by simp [hostEvents_cons, host], fun _ => passed, fun _ => rfl⟩
  · have nonzero : error.effect.apply e.code ≠ 0 :=
      error.effect.apply_ne_zero (by have positive := e.positive; omega)
    refine ⟨answer, by simp [hostEvents_cons, host], fun zero => ?_, fun passed => ?_⟩
    · omega
    · rw [passed] at failed
      cases failed

/-- The complete runs of the handler that does not log. -/
theorem exec_nosqlFSAccess_iff {path : Bytes} {mask : Nat} :
    Exec s (nosqlFSAccess path mask) t s' reply ↔
      ∃ answer : Except Errno Unit, t = [⟨.access path mask, answer⟩] ∧
        reply = replyOf (failureOf answer) ∧
        s' = s.withErrno ((failureOf answer).elim s.errno Errno.code) := by
  simp only [nosqlFSAccess, access, Program.bind_eq, Program.pure_eq, Program.call_andThen,
    exec_call_iff, exec_andThen_iff, exec_status_iff]
  constructor
  · rintro ⟨answer, _, rfl, _, _, _, result, rfl, ⟨rfl, ⟨passed, rfl, rfl⟩ | ⟨e, failed, rfl, rfl⟩⟩, rest⟩
    · simp only [Int.lt_irrefl, ↓reduceIte, exec_done_iff] at rest
      obtain ⟨rfl, rfl, rfl⟩ := rest
      exact ⟨answer, rfl, by rw [passed, replyOf_none], by rw [passed]; rfl⟩
    · simp only [Int.reduceNeg, Int.reduceLT, ↓reduceIte, exec_andThen_iff, exec_getErrno_iff,
        exec_done_iff] at rest
      obtain ⟨_, _, _, _, rfl, ⟨rfl, rfl, rfl⟩, rfl, rfl, rfl⟩ := rest
      exact ⟨answer, rfl, by rw [failed, replyOf_some]; rfl, by rw [failed]; rfl⟩
  · rintro ⟨answer, rfl, rfl, rfl⟩
    cases failed : failureOf answer with
    | none =>
        refine ⟨answer, [], rfl, [], [], s, 0, rfl, ⟨rfl, .inl ⟨failed, rfl, rfl⟩⟩, ?_⟩
        simp
    | some e =>
        refine ⟨answer, [], rfl, [], [], s.withErrno e.code, -1, rfl,
          ⟨rfl, .inr ⟨e, failed, rfl, rfl⟩⟩, ?_⟩
        simp only [Int.reduceNeg, Int.reduceLT, ↓reduceIte, exec_andThen_iff, exec_getErrno_iff,
          exec_done_iff]
        exact ⟨[], [], _, _, rfl, ⟨rfl, rfl, rfl⟩, rfl, rfl, rfl⟩

/-! ## Transparency -/

/-- The requests served by a single system call. -/
def Request.isSingleCall : Request → Bool
  | .getattr .. => true
  | .access .. => true
  | .mkdir .. => true
  | .unlink _ => true
  | .rmdir _ => true
  | .symlink .. => true
  | .rename .. => true
  | .link .. => true
  | .chmod .. => true
  | .chown .. => true
  | .truncate .. => true
  | .statfs .. => true
  | _ => false

/-- The run made one system call, and the reply is its outcome. -/
def ErrorTransparent (t : HostTrace) (reply : Int) : Prop :=
  ∃ event, hostEvents t = [event] ∧ reply = replyOf (event.call.failure event.answer)

/-- Writing the message of `log_error` leaves the error number that it reports. -/
def LogErrorKeepsErrno (t : HostTrace) : Prop :=
  ∀ message ∈ messages t, message.format = errorFormat →
    ∀ e ∈ failures t, message.effect.apply e.code = e.code

/-- A single-call request other than `access` is served by a logged system call. -/
theorem loggedCall_of_isSingleCall {request : Request} (single : request.isSingleCall = true) :
    (∃ path mask, request = .access path mask) ∨
      ∃ (c : HostCall) (next : c.Answer → Handler Int) (format func : String) (args : List Arg),
        nosqlFSOper request = loggedCall format args func (.call c next) ∧
          c.isLog = false ∧ format ≠ errorFormat ∧ ReportsStatus c next := by
  cases request <;> try cases single
  case access path mask => exact .inl ⟨path, mask, rfl⟩
  all_goals
    exact .inr ⟨_, _, _, _, _, rfl, rfl, by decide, fun _ _ _ _ _ => exec_status_iff⟩

theorem loggedCall_transparent_iff {c : HostCall} {next : c.Answer → Handler Int}
    (status : ReportsStatus c next) (host : c.isLog = false) {format func : String}
    {args : List Arg} (entryFormat : format ≠ errorFormat)
    (run : Exec s (loggedCall format args func (.call c next)) t s' reply) :
    ErrorTransparent t reply ↔ LogErrorKeepsErrno t := by
  have notRetstat : retstatFormat ≠ errorFormat := by decide
  obtain ⟨entry, answer, retstat, ⟨passed, rfl, rfl, rfl⟩ |
    ⟨e, text, error, failed, rfl, rfl, rfl⟩⟩ := (exec_loggedCall_iff status).mp run
  · have only : hostEvents (logEvents s.stream format args entry ++
        ⟨c, answer⟩ :: retstatEvents s.stream func 0 retstat) = [⟨c, answer⟩] := by
      simp [hostEvents_cons, host]
    have clean : failures (logEvents s.stream format args entry ++
        ⟨c, answer⟩ :: retstatEvents s.stream func 0 retstat) = [] := by
      simp [failures_cons, passed]
    constructor
    · intro _ message _ _ e member
      rw [clean] at member
      cases member
    · intro _
      exact ⟨_, only, by rw [passed, replyOf_none]⟩
  · have only : hostEvents (logEvents s.stream format args entry ++ ⟨c, answer⟩ ::
        (retstatEvents s.stream func (-1) retstat ++
          errorEvents s.stream func e.code text error)) = [⟨c, answer⟩] := by
      simp [hostEvents_cons, host]
    have failedOnce : failures (logEvents s.stream format args entry ++ ⟨c, answer⟩ ::
        (retstatEvents s.stream func (-1) retstat ++
          errorEvents s.stream func e.code text error)) = [e] := by
      simp [failures_cons, failed]
    have silent : messageOf ⟨c, answer⟩ = none := by
      cases c <;> first | rfl | cases host
    have logged : messages (logEvents s.stream format args entry ++ ⟨c, answer⟩ ::
        (retstatEvents s.stream func (-1) retstat ++
          errorEvents s.stream func e.code text error)) =
        [⟨format, entry.effect⟩, ⟨retstatFormat, retstat.effect⟩, ⟨errorFormat, error.effect⟩] := by
      simp [messages_cons, silent]
    unfold ErrorTransparent LogErrorKeepsErrno
    rw [only, failedOnce, logged]
    simp [failed, entryFormat, notRetstat]

/-- A single-call handler answers with the outcome of its system call exactly when
writing the message of `log_error` leaves the error number in place. -/
theorem singleCall_transparent_iff {request : Request} (single : request.isSingleCall = true)
    (run : Exec s (nosqlFSOper request) t s' reply) :
    ErrorTransparent t reply ↔ LogErrorKeepsErrno t := by
  obtain ⟨path, mask, rfl⟩ | ⟨c, next, format, func, args, served, host, entryFormat, status⟩ :=
    loggedCall_of_isSingleCall single
  · obtain ⟨answer, rfl, rfl, rfl⟩ := exec_nosqlFSAccess_iff.mp run
    constructor
    · intro _ message member
      cases member
    · intro _
      exact ⟨_, rfl, rfl⟩
  · rw [served] at run
    exact loggedCall_transparent_iff status host entryFormat run

/-- The run of `mkdir` on an existing directory, with the given last message. -/
def existingDirectoryTrace (error : LogStep) : HostTrace :=
  logEvents startThread.stream "nosqlFS_mkdir(path = \"%s\", mode = 0%3o)\n"
      [.str (ascii "/a"), .int 493] quietStep ++
    ⟨.mkdir (ascii "/a") 493, .error .eexist⟩ ::
      (retstatEvents startThread.stream "mkdir" (-1) quietStep ++
        errorEvents startThread.stream "mkdir" 17 (ascii "File exists") error)

theorem exec_existingDirectory (error : LogStep) :
    Exec startThread (nosqlFSOper (.mkdir (ascii "/a") 493)) (existingDirectoryTrace error)
      (startThread.withErrno (error.effect.apply 17)) (-error.effect.apply 17) :=
  (exec_loggedCall_iff fun _ _ _ _ _ => exec_status_iff).mpr
    ⟨quietStep, .error .eexist, quietStep,
      .inr ⟨.eexist, ascii "File exists", error, rfl, rfl, rfl, rfl⟩⟩

theorem existingDirectory_transparent :
    ErrorTransparent (existingDirectoryTrace quietStep) (-17) :=
  (singleCall_transparent_iff rfl (exec_existingDirectory quietStep)).mpr (by
    intro message _ _ e member
    obtain rfl := List.mem_singleton.mp member
    revert message
    simp [existingDirectoryTrace, messages_cons, messageOf, quietStep])

/-- With the log's disk full, `mkdir` on an existing directory answers `-ENOSPC`. -/
theorem singleCall_not_transparent :
    ¬ ∀ (request : Request) (s s' : ThreadLocal) (t : HostTrace) (reply : Int),
      request.isSingleCall = true → Exec s (nosqlFSOper request) t s' reply →
        ErrorTransparent t reply := by
  intro claim
  obtain ⟨event, only, replied⟩ := claim _ _ _ _ _ rfl (exec_existingDirectory fullDiskStep)
  cases only
  exact absurd replied (by decide)

end NosqlFS
