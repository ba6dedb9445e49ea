import NosqlFS.Runs.Files

/-!
# Reopen and transfer

`nosqlFS_read` and `nosqlFS_write` reopen their path, transfer once and close.  The
test that should stop them after a failed open compares a translated result with
`-1`, so it sees `EPERM` and no other error.
-/

namespace NosqlFS

open Interaction Text

variable {s s' : ThreadLocal} {t : HostTrace} {reply : Int}

/-! ## What a transfer should report -/

/-- The reopen failed and nothing else was tried, or one transfer was made on the new
descriptor, which was closed afterwards; the reply is the outcome. -/
def Reopened {α : Type} (path : Bytes) (flags : Nat) (moved : α → Int)
    (transfer : Int → Except Errno α → HostEvent) (calls : HostTrace) (reply : Int) : Prop :=
  (∃ e : Errno, calls = [⟨.openPath path flags 0, .error e⟩] ∧ reply = -e.code) ∨
    ∃ (fd : Nat) (answer : Except Errno α) (closed : Except Errno Unit),
      calls = [⟨.openPath path flags 0, .ok fd⟩, transfer fd answer, ⟨.close fd, closed⟩] ∧
      ((∃ got, answer = .ok got ∧ reply = moved got) ∨
        ∃ e : Errno, answer = .error e ∧ reply = -e.code)

/-- The report each of the two requests owes; other requests owe none. -/
def TransferExact (request : Request) (t : HostTrace) (reply : Int) : Prop :=
  match request with
  | .read path buf size offset _ =>
      Reopened path oRdonly (fun copied : Bytes => copied.length)
        (fun fd answer => ⟨.pread fd buf size offset, answer⟩) (hostEvents t) reply
  | .write path buf size offset _ =>
      Reopened path oWronly (fun written : Nat => written)
        (fun fd answer => ⟨.pwrite fd buf size offset, answer⟩) (hostEvents t) reply
  | _ => True

def movedBytes : HostEvent → Nat
  | ⟨.pread .., .ok copied⟩ => copied.length
  | ⟨.pwrite .., .ok written⟩ => written
  | _ => 0

/-- No transfer moves more bytes than an `int` counts. -/
def TransfersFitInt (t : HostTrace) : Prop := ∀ event ∈ t, movedBytes event < 2 ^ 31

/-- The host refuses to open with no error but `EPERM`. -/
def OpensFailWithEperm (t : HostTrace) : Prop := ∀ e ∈ openFailures t, e = .eperm

theorem opensFailWithEperm_hostEvents_iff :
    OpensFailWithEperm (hostEvents t) ↔ OpensFailWithEperm t := by
  unfold OpensFailWithEperm
  rw [openFailures_hostEvents]

theorem opensFailWithEperm_cons_iff {path : Bytes} {flags mode : Nat}
    {answer : Except Errno Nat} {u : HostTrace} :
    OpensFailWithEperm (⟨.openPath path flags mode, answer⟩ :: u) ↔
      (∀ e, answer = .error e → e = .eperm) ∧ OpensFailWithEperm u := by
  unfold OpensFailWithEperm
  cases answer with
  | ok fd => simp [openFailures_cons, openFailure, failureOf]
  | error e => simp [openFailures_cons, openFailure, failureOf]

/-- A transfer and the close after it open nothing. -/
theorem opensFailWithEperm_of_transferred {event : HostEvent} (moves : openFailure event = none)
    {fd : Int} {closed : Except Errno Unit} :
    OpensFailWithEperm [event, ⟨.close fd, closed⟩] := by
  intro e member
  rw [openFailures_cons, moves] at member
  cases member

theorem transfersFitInt_append {u : HostTrace} :
    TransfersFitInt (t ++ u) ↔ TransfersFitInt t ∧ TransfersFitInt u := by
  simp only [TransfersFitInt, List.mem_append, or_imp, forall_and]

/-! ## Runs -/

/-- The transfer step of both handlers: a logged call and a close whose result is dropped. -/
theorem transfer_run {α : Type} {c : HostCall} {next : c.Answer → Handler Int} {func : String}
    {fd : Int} {moved : α → Int} {outcome : c.Answer → Except Errno α}
    (follows : ∀ answer, next answer = fromHost moved (outcome answer))
    (host : c.isLog = false)
    (run : Exec s ((Program.call c next).andThen fun result =>
      (logSyscall func (toInt result) 0).andThen fun retstat =>
        (close fd).andThen fun _ => .done retstat) t s' reply)
    (fits : ∀ answer got, (⟨c, answer⟩ : HostEvent) ∈ t → outcome answer = .ok got →
      0 ≤ moved got ∧ moved got < 2 ^ 31)
    (quiet : LogsKeepErrno t) :
    ∃ (answer : c.Answer) (closed : Except Errno Unit),
      hostEvents t = [⟨c, answer⟩, ⟨.close fd, closed⟩] ∧
      ((∃ got, outcome answer = .ok got ∧ reply = moved got) ∨
        ∃ e, outcome answer = .error e ∧ reply = -e.code) := by
  have closing : (HostCall.close fd).isLog = false := rfl
  simp only [exec_andThen_iff, exec_hostCall_iff follows, exec_close_iff, exec_done_iff] at run
  obtain ⟨_, _, s₁, result, rfl, ⟨answer, rfl, delivers⟩, t₂, _, s₂, retstat, rfl, logged,
    _, _, s₃, _, rfl, ⟨closed, rfl, _⟩, rfl, rfl, rfl⟩ := run
  simp only [logsKeepErrno_append] at quiet
  have small : ∀ got, outcome answer = .ok got → 0 ≤ moved got ∧ moved got < 2 ^ 31 :=
    fun got passed => fits answer got (by simp) passed
  have narrowed : Delivers moved (fun _ => -1) s (outcome answer) s₁ (toInt result) := by
    rcases delivers with ⟨got, passed, rfl, rfl⟩ | ⟨e, failed, rfl, rfl⟩
    · have bound := small got passed
      exact .inl ⟨got, passed, rfl, toInt_of_small (by omega) bound.2⟩
    · exact .inr ⟨e, failed, rfl, rfl⟩
  obtain ⟨silent, translated⟩ :=
    narrowed.logged (fun got passed => (small got passed).1) logged quiet.2.1
  refine ⟨answer, closed, ?_, ?_⟩
  · simp [hostEvents_cons, silent, host, closing]
  · rcases translated with ⟨got, passed, _, rfl⟩ | ⟨e, failed, _, rfl⟩
    · exact .inl ⟨got, passed, rfl⟩
    · exact .inr ⟨e, failed, rfl⟩

/-- The reopen step of both handlers, in front of a transfer step with known runs. -/
theorem reopened_iff {α : Type} {path : Bytes} {flags : Nat} {moved : α → Int}
    {transfer : Int → Except Errno α → HostEvent} {step : Int → Handler Int}
    (run : Exec s ((openPath path flags 0).andThen fun opened =>
      (logSyscall "open" opened 0).andThen fun fd =>
        if fd = -1 then getErrno.andThen fun errno => .done (-errno) else step fd) t s' reply)
    (transferred : ∀ {fd : Int} {s : ThreadLocal} {u : HostTrace}, Exec s (step fd) u s' reply →
      LogsKeepErrno u → TransfersFitInt u →
      ∃ (answer : Except Errno α) (closed : Except Errno Unit),
        hostEvents u = [transfer fd answer, ⟨.close fd, closed⟩] ∧
        ((∃ got, answer = .ok got ∧ reply = moved got) ∨
          ∃ e : Errno, answer = .error e ∧ reply = -e.code))
    (moves : ∀ fd answer, openFailure (transfer fd answer) = none)
    (quiet : LogsKeepErrno t) (fits : TransfersFitInt t) :
    Reopened path flags moved transfer (hostEvents t) reply ↔ OpensFailWithEperm t := by
  have opening : (HostCall.openPath path flags 0).isLog = false := rfl
  simp only [exec_andThen_iff, exec_openPath_iff] at run
  obtain ⟨_, _, s₁, opened, rfl, ⟨answer, rfl, delivers⟩, t₂, t₃, s₂, fd, rfl, logged, rest⟩ := run
  simp only [logsKeepErrno_append, transfersFitInt_append] at quiet fits
  obtain ⟨silent, translated⟩ :=
    delivers.logged (fun got _ => Int.natCast_nonneg got) logged quiet.2.1
  have whole : hostEvents ([⟨.openPath path flags 0, answer⟩] ++ (t₂ ++ t₃)) =
      ⟨.openPath path flags 0, answer⟩ :: hostEvents t₃ := by
    simp [hostEvents_cons, silent, opening]
  have refused : OpensFailWithEperm ([⟨.openPath path flags 0, answer⟩] ++ (t₂ ++ t₃)) ↔
      (∀ e, answer = .error e → e = .eperm) ∧ OpensFailWithEperm (hostEvents t₃) := by
    rw [← opensFailWithEperm_hostEvents_iff, whole, opensFailWithEperm_cons_iff]
  unfold Reopened
  rw [whole, refused]
  rcases translated with ⟨n, rfl, rfl, rfl⟩ | ⟨e, rfl, rfl, rfl⟩
  · rw [if_neg (by omega)] at rest
    obtain ⟨moved, closed, made, outcome⟩ := transferred rest quiet.2.2 fits.2.2
    rw [made]
    constructor
    · intro _
      exact ⟨(fun e impossible => by cases impossible),
        opensFailWithEperm_of_transferred (moves _ _)⟩
    · intro _
      exact .inr ⟨n, moved, closed, rfl, outcome⟩
  · by_cases denied : e.code = 1
    · have test : (fun e : Errno => -e.code) e = -1 := by simp only [denied]
      rw [if_pos test, exec_negatedErrno_iff] at rest
      obtain ⟨rfl, rfl, rfl⟩ := rest
      constructor
      · intro _
        refine ⟨fun other same => ?_, fun other member => absurd member List.not_mem_nil⟩
        cases same
        exact Errno.ext denied
      · intro _
        exact .inl ⟨e, rfl, rfl⟩
    · have test : ¬ (fun e : Errno => -e.code) e = -1 :=
        fun same => denied (Int.neg_inj.mp same)
      rw [if_neg test] at rest
      obtain ⟨moved, closed, made, outcome⟩ := transferred rest quiet.2.2 fits.2.2
      rw [made]
      constructor
      · rintro (⟨_, impossible, _⟩ | ⟨_, _, _, impossible, _⟩)
        · cases impossible
        · cases impossible
      · intro condition
        exact absurd (congrArg Errno.code (condition.1 e rfl)) denied

/-! ## The two handlers -/

theorem nosqlFSRead_reopened_iff {path : Bytes} {buf size : Nat} {offset : Int}
    {fi : Pointer FuseFileInfo} (run : Exec s (nosqlFSRead path buf size offset fi) t s' reply)
    (quiet : LogsKeepErrno t) (fits : TransfersFitInt t) :
    TransferExact (.read path buf size offset fi) t reply ↔ OpensFailWithEperm t := by
  unfold TransferExact
  refine reopened_iff run ?_ ?_ quiet fits
  · intro fd s u run quiet fits
    simp only [Program.bind_eq] at run
    obtain ⟨_, t₂, _, _, rfl, message, rest⟩ := exec_andThen_iff.mp run
    simp only [logsKeepErrno_append, transfersFitInt_append] at quiet fits
    have silent := logMsg_silent message quiet.1
    obtain ⟨answer, closed, made, outcome⟩ := transfer_run (fun _ => rfl) rfl rest
      (fun answer copied member passed => by
        cases passed
        have bound : copied.length < 2 ^ 31 := fits.2 _ member
        omega) quiet.2
    exact ⟨answer, closed, by simpa [silent.noHostEvents] using made, outcome⟩
  · intro fd answer
    rfl

theorem nosqlFSWrite_reopened_iff {path : Bytes} {buf : Pointer Bytes} {size : Nat} {offset : Int}
    {fi : Pointer FuseFileInfo} (run : Exec s (nosqlFSWrite path buf size offset fi) t s' reply)
    (quiet : LogsKeepErrno t) (fits : TransfersFitInt t) :
    TransferExact (.write path buf size offset fi) t reply ↔ OpensFailWithEperm t := by
  simp only [nosqlFSWrite, Program.bind_eq, Program.pure_eq] at run
  obtain ⟨t₁, t₂, s₁, _, rfl, message, rest⟩ := exec_andThen_iff.mp run
  simp only [logsKeepErrno_append, transfersFitInt_append] at quiet fits
  have silent := logMsg_silent message quiet.1
  have skipped : hostEvents (t₁ ++ t₂) = hostEvents t₂ := by
    rw [hostEvents_append, silent.noHostEvents, List.nil_append]
  rw [← opensFailWithEperm_hostEvents_iff, skipped, opensFailWithEperm_hostEvents_iff]
  unfold TransferExact
  simp only [skipped]
  refine reopened_iff rest ?_ ?_ quiet.2 fits.2
  · intro fd s u run quiet fits
    exact transfer_run (fun _ => rfl) rfl run
      (fun answer written member passed => by
        cases passed
        have bound : written < 2 ^ 31 := fits _ member
        omega) quiet
  · intro fd answer
    rfl

def Request.isTransfer : Request → Bool
  | .read .. => true
  | .write .. => true
  | _ => false

/-- A transfer handler reports the reopen and the transfer exactly when the host
refuses the reopen with no error but `EPERM`. -/
theorem transfer_exact_iff {request : Request} (transfers : request.isTransfer = true)
    (run : Exec s (nosqlFSOper request) t s' reply) (quiet : LogsKeepErrno t)
    (fits : TransfersFitInt t) : TransferExact request t reply ↔ OpensFailWithEperm t := by
  cases request with
  | read path buf size offset fi => exact nosqlFSRead_reopened_iff run quiet fits
  | write path buf size offset fi => exact nosqlFSWrite_reopened_iff run quiet fits
  | _ => cases transfers

/-! ## Two runs -/

def readMessage : HostTrace :=
  logEvents startThread.stream
    "nosqlFS_read(path = \"%s\", buf = 0x%08x, size = %d, offset = %lld, fuse_file_info = 0x%08x)\n"
    [.str (ascii "/a"), .int 32, .int 8, .int 0, .int 16] quietStep

/-- A read that finds two bytes. -/
def shortReadTrace : HostTrace :=
  ⟨.openPath (ascii "/a") oRdonly 0, .ok 4⟩ ::
    (retstatEvents startThread.stream "open" 4 quietStep ++ readMessage ++
      ⟨.pread 4 32 8 0, .ok [104, 105]⟩ ::
        (retstatEvents startThread.stream "pread" 2 quietStep ++ [⟨.close 4, .error .eio⟩]))

theorem exec_shortRead :
    Exec startThread (nosqlFSOper (.read (ascii "/a") 32 8 0 plainFile)) shortReadTrace
      (startThread.withErrno 5) 2 := by
  have replayed : run recording 0 (nosqlFSOper (.read (ascii "/a") 32 8 0 plainFile)) startThread
      shortReadTrace = some (2, startThread.withErrno 5, []) := by rfl
  exact exec_of_recording replayed

theorem shortRead_exact :
    TransferExact (.read (ascii "/a") 32 8 0 plainFile) shortReadTrace 2 := by
  have quiet : LogsKeepErrno shortReadTrace := by
    simp [shortReadTrace, LogsKeepErrno, messages_cons, messageOf, readMessage, quietStep]
  have fits : TransfersFitInt shortReadTrace := by
    unfold TransfersFitInt
    decide
  exact (transfer_exact_iff rfl exec_shortRead quiet fits).mpr (by unfold OpensFailWithEperm; decide)

/-- A read of a file that may not be opened goes on with descriptor `-13`. -/
def deniedReadTrace : HostTrace :=
  ⟨.openPath (ascii "/a") oRdonly 0, .error .eacces⟩ ::
    (retstatEvents startThread.stream "open" (-1) quietStep ++
      errorEvents startThread.stream "open" 13 (ascii "Permission denied") quietStep ++
      readMessage ++ ⟨.pread (-13) 32 8 0, .error .ebadf⟩ ::
        (retstatEvents startThread.stream "pread" (-1) quietStep ++
          errorEvents startThread.stream "pread" 9 (ascii "Bad file descriptor") quietStep ++
          [⟨.close (-13), .error .ebadf⟩]))

theorem exec_deniedRead :
    Exec startThread (nosqlFSOper (.read (ascii "/a") 32 8 0 plainFile)) deniedReadTrace
      (startThread.withErrno 9) (-9) := by
  have replayed : run recording 0 (nosqlFSOper (.read (ascii "/a") 32 8 0 plainFile)) startThread
      deniedReadTrace = some (-9, startThread.withErrno 9, []) := by rfl
  exact exec_of_recording replayed

/-- The client is told `EBADF` instead of `EACCES`, after a transfer on no descriptor. -/
theorem transfer_not_exact :
    ¬ ∀ (request : Request) (s s' : ThreadLocal) (t : HostTrace) (reply : Int),
      request.isTransfer = true → Exec s (nosqlFSOper request) t s' reply → LogsKeepErrno t →
        TransfersFitInt t → TransferExact request t reply := by
  intro claim
  have quiet : LogsKeepErrno deniedReadTrace := by
    simp [deniedReadTrace, LogsKeepErrno, messages_cons, messageOf, readMessage, quietStep]
  have reported := claim _ _ _ _ _ rfl exec_deniedRead quiet (by unfold TransfersFitInt; decide)
  rcases reported with ⟨e, only, _⟩ | ⟨fd, answer, closed, transferred, _⟩
  · cases only
  · cases transferred

end NosqlFS
