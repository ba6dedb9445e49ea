import NosqlFS.Runs.Outcomes

/-!
# Runs of the logging functions

One characterisation for each function of `log.c` that a handler calls: the exact
trace, the register afterwards, and the result.  Later proofs cite these and never
unfold the functions.
-/

namespace NosqlFS

open Interaction Text

variable {s s' : ThreadLocal} {t : HostTrace}

/-! ## Registers -/

def ThreadLocal.withErrno (s : ThreadLocal) (value : Int) : ThreadLocal := { s with errno := value }

/-- The stream every message of the thread goes to. -/
def ThreadLocal.stream (s : ThreadLocal) : Nat := s.context.target.privateData.target.logFile

@[simp]
theorem withErrno_errno (s : ThreadLocal) (value : Int) : (s.withErrno value).errno = value := rfl

@[simp]
theorem withErrno_withErrno (s : ThreadLocal) (first second : Int) :
    (s.withErrno first).withErrno second = s.withErrno second := rfl

@[simp]
theorem withErrno_self (s : ThreadLocal) : s.withErrno s.errno = s := rfl

@[simp]
theorem exec_getErrno_iff {value : Int} :
    Exec s getErrno t s' value ↔ t = [] ∧ s' = s ∧ value = s.errno := by
  simp [getErrno]

@[simp]
theorem exec_setErrno_iff {value : Int} {nothing : Unit} :
    Exec s (setErrno value) t s' nothing ↔ t = [] ∧ s' = s.withErrno value := by
  simp [setErrno, ThreadLocal.withErrno]

/-- The two outcomes of a call that follows the C convention. -/
theorem exec_fromHost_iff {α : Type} {value : α → Int} {answer : Except Errno α} {result : Int} :
    Exec s (fromHost value answer) t s' result ↔ t = [] ∧
      ((∃ got, answer = .ok got ∧ s' = s ∧ result = value got) ∨
        ∃ e, answer = .error e ∧ s' = s.withErrno e.code ∧ result = -1) := by
  cases answer with
  | ok got => simp [fromHost]
  | error e =>
      simp only [fromHost, Program.bind_eq, Program.pure_eq, exec_andThen_iff, exec_setErrno_iff,
        exec_done_iff]
      constructor
      · rintro ⟨_, _, _, _, rfl, ⟨rfl, rfl⟩, rfl, rfl, rfl⟩
        exact ⟨rfl, .inr ⟨e, rfl, rfl, rfl⟩⟩
      · rintro ⟨rfl, ⟨_, impossible, _⟩ | ⟨_, same, rfl, rfl⟩⟩
        · cases impossible
        · cases same
          exact ⟨[], [], _, (), rfl, ⟨rfl, rfl⟩, rfl, rfl, rfl⟩

/-! ## One message -/

/-- What the surroundings contribute to one message. -/
structure LogStep where
  timep : Int
  tm : Tm
  effect : ErrnoEffect

def logEvents (stream : Nat) (format : String) (args : List Arg) (step : LogStep) : HostTrace :=
  [⟨.time, step.timep⟩, ⟨.localtime step.timep, step.tm⟩, ⟨.strftime step.tm, ()⟩,
    ⟨.fputs stream, ()⟩, ⟨.vfprintf stream format args, step.effect⟩]

@[simp]
theorem hostEvents_logEvents (stream : Nat) (format : String) (args : List Arg)
    (step : LogStep) : hostEvents (logEvents stream format args step) = [] := rfl

@[simp]
theorem failures_logEvents (stream : Nat) (format : String) (args : List Arg)
    (step : LogStep) : failures (logEvents stream format args step) = [] := rfl

@[simp]
theorem messages_logEvents (stream : Nat) (format : String) (args : List Arg)
    (step : LogStep) : messages (logEvents stream format args step) = [⟨format, step.effect⟩] := rfl

@[simp]
theorem logsKeepErrno_logEvents {stream : Nat} {format : String} {args : List Arg}
    {step : LogStep} :
    LogsKeepErrno (logEvents stream format args step) ↔ step.effect = .keep := by
  simp [LogsKeepErrno]

theorem exec_logMsg_iff {format : String} {args : List Arg} {nothing : Unit} :
    Exec s (logMsg format args) t s' nothing ↔
      ∃ step : LogStep, t = logEvents s.stream format args step ∧
        s' = s.withErrno (step.effect.apply s.errno) := by
  simp only [logMsg, time, localtime, strftime, fputs, vfprintf, nosqlFSData, fuseGetContext,
    applyEffect, Program.bind_eq, Program.pure_eq, Program.call_andThen, Program.read_andThen,
    Program.done_andThen, exec_call_iff, exec_read_iff, exec_write_iff, exec_done_iff]
  constructor
  · rintro ⟨timep, _, rfl, tm, _, rfl, ⟨⟩, _, rfl, ⟨⟩, _, rfl, effect, _, rfl, rfl, rfl, _⟩
    exact ⟨⟨timep, tm, effect⟩, rfl, rfl⟩
  · rintro ⟨⟨timep, tm, effect⟩, rfl, rfl⟩
    exact ⟨timep, _, rfl, tm, _, rfl, (), _, rfl, (), _, rfl, effect, _, rfl, rfl, rfl, trivial⟩

/-! ## Results of host calls -/

def retstatFormat : String := "%s returned %d\n"

def errorFormat : String := "ERROR %s : %s\n"

def retstatEvents (stream : Nat) (func : String) (retstat : Int) (step : LogStep) : HostTrace :=
  logEvents stream retstatFormat [.str (ascii func), .int retstat] step

/-- The events of `log_error`: the text of the error, then its message. -/
def errorEvents (stream : Nat) (func : String) (errno : Int) (text : Bytes) (step : LogStep) :
    HostTrace :=
  ⟨.strerror errno, text⟩ :: logEvents stream errorFormat [.str (ascii func), .str text] step

@[simp]
theorem hostEvents_retstatEvents (stream : Nat) (func : String) (retstat : Int)
    (step : LogStep) : hostEvents (retstatEvents stream func retstat step) = [] := rfl

@[simp]
theorem failures_retstatEvents (stream : Nat) (func : String) (retstat : Int)
    (step : LogStep) : failures (retstatEvents stream func retstat step) = [] := rfl

@[simp]
theorem messages_retstatEvents (stream : Nat) (func : String) (retstat : Int)
    (step : LogStep) :
    messages (retstatEvents stream func retstat step) = [⟨retstatFormat, step.effect⟩] := rfl

@[simp]
theorem hostEvents_errorEvents (stream : Nat) (func : String) (errno : Int) (text : Bytes)
    (step : LogStep) : hostEvents (errorEvents stream func errno text step) = [] := rfl

@[simp]
theorem failures_errorEvents (stream : Nat) (func : String) (errno : Int) (text : Bytes)
    (step : LogStep) : failures (errorEvents stream func errno text step) = [] := rfl

@[simp]
theorem messages_errorEvents (stream : Nat) (func : String) (errno : Int) (text : Bytes)
    (step : LogStep) :
    messages (errorEvents stream func errno text step) = [⟨errorFormat, step.effect⟩] := rfl

@[simp]
theorem logsKeepErrno_errorEvents {stream : Nat} {func : String} {errno : Int} {text : Bytes}
    {step : LogStep} :
    LogsKeepErrno (errorEvents stream func errno text step) ↔ step.effect = .keep := by
  simp [LogsKeepErrno]

/-- `log_error` returns the negated `errno` that its own message left behind. -/
theorem exec_logError_iff {func : String} {value : Int} :
    Exec s (logError func) t s' value ↔
      ∃ text step, t = errorEvents s.stream func s.errno text step ∧
        s' = s.withErrno (step.effect.apply s.errno) ∧ value = -step.effect.apply s.errno := by
  simp only [logError, getErrno, strerror, Program.bind_eq, Program.pure_eq, Program.call_andThen,
    Program.read_andThen, Program.done_andThen, exec_read_iff, exec_call_iff, exec_andThen_iff,
    exec_logMsg_iff, exec_done_iff]
  constructor
  · rintro ⟨text, _, rfl, _, _, _, _, rfl, ⟨step, rfl, rfl⟩, rfl, rfl, rfl⟩
    exact ⟨text, step, by rw [List.append_nil]; rfl, rfl, rfl⟩
  · rintro ⟨text, step, rfl, rfl, rfl⟩
    exact ⟨text, _, rfl, _, [], _, (), (List.append_nil _).symm, ⟨step, rfl, rfl⟩, rfl, rfl, rfl⟩

/-- `log_retstat` leaves the registers as they were. -/
theorem exec_logRetstat_iff {func : String} {retstat : Int} {nothing : Unit} :
    Exec s (logRetstat func retstat) t s' nothing ↔
      ∃ step, t = retstatEvents s.stream func retstat step ∧ s' = s := by
  simp only [logRetstat, getErrno, Program.bind_eq, Program.read_andThen, Program.done_andThen,
    exec_read_iff, exec_andThen_iff, exec_logMsg_iff, exec_setErrno_iff]
  constructor
  · rintro ⟨_, _, _, _, rfl, ⟨step, rfl, rfl⟩, rfl, rfl⟩
    exact ⟨step, List.append_nil _, rfl⟩
  · rintro ⟨step, rfl, rfl⟩
    exact ⟨_, [], _, (), (List.append_nil _).symm, ⟨step, rfl, rfl⟩, rfl, rfl⟩

/-- `log_syscall` passes a result through, or replaces it by the negated `errno`
that the message of `log_error` left behind. -/
theorem exec_logSyscall_iff {func : String} {retstat minRet value : Int} :
    Exec s (logSyscall func retstat minRet) t s' value ↔
      ∃ step, (minRet ≤ retstat ∧ t = retstatEvents s.stream func retstat step ∧ s' = s ∧
          value = retstat) ∨
        (retstat < minRet ∧ ∃ text error,
          t = retstatEvents s.stream func retstat step ++
            errorEvents s.stream func s.errno text error ∧
          s' = s.withErrno (error.effect.apply s.errno) ∧
          value = -error.effect.apply s.errno) := by
  simp only [logSyscall, Program.bind_eq, Program.pure_eq, exec_andThen_iff, exec_logRetstat_iff]
  by_cases low : retstat < minRet
  · simp only [low, ↓reduceIte, exec_andThen_iff, exec_logError_iff, exec_getErrno_iff,
      exec_done_iff]
    constructor
    · rintro ⟨_, _, _, _, rfl, ⟨step, rfl, rfl⟩, _, _, _, _, rfl, ⟨text, error, rfl, rfl, rfl⟩,
        _, _, _, _, rfl, ⟨rfl, rfl, rfl⟩, rfl, rfl, rfl⟩
      exact ⟨step, .inr ⟨trivial, text, error, by simp, rfl, rfl⟩⟩
    · rintro ⟨step, ⟨high, _⟩ | ⟨_, text, error, rfl, rfl, rfl⟩⟩
      · omega
      · exact ⟨_, _, _, (), rfl, ⟨step, rfl, rfl⟩, _, [], _, _, (List.append_nil _).symm,
          ⟨text, error, rfl, rfl, rfl⟩, [], [], _, _, rfl, ⟨rfl, rfl, rfl⟩, rfl, rfl, rfl⟩
  · simp only [low, ↓reduceIte, exec_done_iff]
    constructor
    · rintro ⟨_, _, _, _, rfl, ⟨step, rfl, rfl⟩, rfl, rfl, rfl⟩
      exact ⟨step, .inl ⟨by omega, List.append_nil _, rfl, rfl⟩⟩
    · rintro ⟨step, ⟨_, rfl, rfl, rfl⟩ | ⟨impossible, _⟩⟩
      · exact ⟨_, [], _, (), (List.append_nil _).symm, ⟨step, rfl, rfl⟩, rfl, rfl, rfl⟩
      · exact impossible.elim

/-! ## Dumps -/

/-- What a sequence of messages makes of `errno`. -/
def errnoAfter (sent : List Message) (errno : Int) : Int :=
  sent.foldl (fun errno message => message.effect.apply errno) errno

/-- A run that only logs, one message for each of the formats. -/
structure Dumps (formats : List String) (s : ThreadLocal) (t : HostTrace)
    (s' : ThreadLocal) : Prop where
  noHostEvents : hostEvents t = []
  sent : (messages t).map Message.format = formats
  register : s' = s.withErrno (errnoAfter (messages t) s.errno)

theorem logMsg_dumps {format : String} {args : List Arg} {nothing : Unit}
    (run : Exec s (logMsg format args) t s' nothing) : Dumps [format] s t s' := by
  obtain ⟨step, rfl, rfl⟩ := exec_logMsg_iff.mp run
  exact ⟨rfl, rfl, rfl⟩

theorem Dumps.append {formats more : List String} {middle : ThreadLocal} {u : HostTrace}
    (first : Dumps formats s t middle) (second : Dumps more middle u s') :
    Dumps (formats ++ more) s (t ++ u) s' := by
  refine ⟨?_, ?_, ?_⟩
  · rw [hostEvents_append, first.noHostEvents, second.noHostEvents, List.append_nil]
  · rw [messages_append, List.map_append, first.sent, second.sent]
  · rw [second.register, first.register, withErrno_withErrno, withErrno_errno, messages_append,
      errnoAfter, errnoAfter, errnoAfter, List.foldl_append]

theorem logMsg_andThen_dumps {format : String} {args : List Arg} {formats : List String}
    {rest : Unit → Handler Unit} {nothing : Unit}
    (run : Exec s ((logMsg format args).andThen rest) t s' nothing)
    (dumps : ∀ {s t}, Exec s (rest ()) t s' nothing → Dumps formats s t s') :
    Dumps (format :: formats) s t s' := by
  obtain ⟨_, _, _, _, rfl, first, second⟩ := exec_andThen_iff.mp run
  exact (logMsg_dumps first).append (dumps second)

/-- The formats of `log_fi`. -/
def fiFormats : List String :=
  ["fi:\n", "flags = 0x%08x\n", "writepage = %d\n", "direct_io = %d\n", "keep_cache = %d\n",
    "fh = 0x%016llx\n", "lock_owner = 0x%016llx\n"]

theorem logFi_dumps {fi : Pointer FuseFileInfo} {nothing : Unit}
    (run : Exec s (logFi fi) t s' nothing) : Dumps fiFormats s t s' := by
  iterate 6 refine logMsg_andThen_dumps run fun run => ?_
  exact logMsg_dumps run

/-! ## Runs whose messages leave `errno` alone -/

/-- A run that is all logging and ends with the registers it started with. -/
structure Silent (s : ThreadLocal) (t : HostTrace) (s' : ThreadLocal) : Prop where
  noHostEvents : hostEvents t = []
  register : s' = s

theorem logMsg_silent {format : String} {args : List Arg} {nothing : Unit}
    (run : Exec s (logMsg format args) t s' nothing) (quiet : LogsKeepErrno t) :
    Silent s t s' := by
  obtain ⟨step, rfl, rfl⟩ := exec_logMsg_iff.mp run
  have kept : step.effect = .keep := logsKeepErrno_logEvents.mp quiet
  exact ⟨hostEvents_logEvents .., by rw [kept, ErrnoEffect.apply_keep, withErrno_self]⟩

/-- Then `log_syscall` translates a negative result into the negated `errno`. -/
theorem logSyscall_silent {func : String} {retstat value : Int}
    (run : Exec s (logSyscall func retstat 0) t s' value) (quiet : LogsKeepErrno t) :
    Silent s t s' ∧ value = if 0 ≤ retstat then retstat else -s.errno := by
  obtain ⟨step, ⟨high, rfl, rfl, rfl⟩ | ⟨low, text, error, rfl, rfl, rfl⟩⟩ :=
    exec_logSyscall_iff.mp run
  · exact ⟨⟨hostEvents_retstatEvents .., rfl⟩, (if_pos high).symm⟩
  · have kept : error.effect = .keep :=
      logsKeepErrno_errorEvents.mp (logsKeepErrno_append.mp quiet).2
    have negative : ¬ 0 ≤ retstat := by omega
    rw [kept, ErrnoEffect.apply_keep, withErrno_self, if_neg negative]
    exact ⟨⟨by simp, rfl⟩, rfl⟩

/-! ## Concrete surroundings -/

/-- A thread whose log goes to the stream at address 3. -/
def startThread : ThreadLocal := ⟨0, ⟨0, ⟨0, 0, 0, 0, ⟨0, ⟨3, none⟩⟩⟩⟩⟩

/-- File information at address 16. -/
def plainFile : Pointer FuseFileInfo := ⟨16, ⟨0, 0, 0, 0, 0, 0⟩⟩

def newYear : Tm := ⟨0, 0, 0, 1, 0, 70, by decide, by decide, by decide, by decide, by decide⟩

/-- A message written without touching `errno`. -/
def quietStep : LogStep := ⟨0, newYear, .keep⟩

/-- The events of messages that nothing disturbs. -/
def quietly (stream : Nat) (calls : List (String × List Arg)) : HostTrace :=
  calls.flatMap fun call => logEvents stream call.1 call.2 quietStep

theorem exec_logMsg_quietly (s : ThreadLocal) (format : String) (args : List Arg) :
    Exec s (logMsg format args) (quietly s.stream [(format, args)]) s () :=
  exec_logMsg_iff.mpr ⟨quietStep, List.append_nil _, rfl⟩

/-- A message that fails to reach a full disk. -/
def fullDiskStep : LogStep := ⟨0, newYear, .set Errno.enospc.code (by decide)⟩

end NosqlFS
