import NosqlFS.Runs.Logging

/-!
# Runs of the file calls

A call that follows the C convention delivers its value or `-1`; passing the result
through `log_syscall` turns the `-1` into the negated error number.
-/

namespace NosqlFS

open Interaction Text

variable {s s' : ThreadLocal} {t : HostTrace} {result : Int} {α : Type}

/-! ## Outcomes -/

/-- The value of a successful call, or what stands for its error with `errno` set. -/
def Delivers (value : α → Int) (failed : Errno → Int) (s : ThreadLocal)
    (answer : Except Errno α) (s' : ThreadLocal) (result : Int) : Prop :=
  (∃ got, answer = .ok got ∧ s' = s ∧ result = value got) ∨
    ∃ e, answer = .error e ∧ s' = s.withErrno e.code ∧ result = failed e

/-- Logging the result of a call replaces `-1` by the negated error number. -/
theorem Delivers.logged {value : α → Int} {answer : Except Errno α} {func : String}
    {retstat : Int} {logged : ThreadLocal} (natural : ∀ got, answer = .ok got → 0 ≤ value got)
    (delivers : Delivers value (fun _ => -1) s answer s' result)
    (run : Exec s' (logSyscall func result 0) t logged retstat) (quiet : LogsKeepErrno t) :
    hostEvents t = [] ∧ Delivers value (fun e => -e.code) s answer logged retstat := by
  obtain ⟨silent, translated⟩ := logSyscall_silent run quiet
  refine ⟨silent.noHostEvents, ?_⟩
  rcases delivers with ⟨got, passed, rfl, rfl⟩ | ⟨e, failed, rfl, rfl⟩
  · rw [if_pos (natural got passed)] at translated
    exact .inl ⟨got, passed, silent.register, translated⟩
  · rw [if_neg (show ¬ (0 : Int) ≤ -1 by decide)] at translated
    exact .inr ⟨e, failed, silent.register, translated⟩

/-- A call whose answer goes through `fromHost`. -/
theorem exec_hostCall_iff {c : HostCall} {next : c.Answer → Handler Int} {value : α → Int}
    {outcome : c.Answer → Except Errno α} (follows : ∀ answer, next answer =
      fromHost value (outcome answer)) :
    Exec s (.call c next) t s' result ↔ ∃ answer, t = [⟨c, answer⟩] ∧
      Delivers value (fun _ => -1) s (outcome answer) s' result := by
  simp only [exec_call_iff, follows, exec_fromHost_iff]
  constructor
  · rintro ⟨answer, _, rfl, rfl, delivers⟩
    exact ⟨answer, rfl, delivers⟩
  · rintro ⟨answer, rfl, delivers⟩
    exact ⟨answer, [], rfl, rfl, delivers⟩

/-! ## Conversion to `int` -/

theorem toInt_of_small {n : Int} (low : -(2 ^ 31) ≤ n) (high : n < 2 ^ 31) : toInt n = n :=
  Int.bmod_eq_of_le (by omega) (by omega)

theorem toInt_lt (n : Int) : toInt n < 2 ^ 31 :=
  Int.lt_of_lt_of_le (Int.bmod_lt (by decide)) (by decide)

/-! ## The calls -/

theorem exec_openPath_iff {path : Bytes} {flags mode : Nat} :
    Exec s (openPath path flags mode) t s' result ↔ ∃ answer : Except Errno Nat,
      t = [⟨.openPath path flags mode, answer⟩] ∧
        Delivers (fun fd : Nat => fd) (fun _ => -1) s answer s' result :=
  exec_hostCall_iff fun _ => rfl

theorem exec_close_iff {fd : Int} :
    Exec s (close fd) t s' result ↔ ∃ answer : Except Errno Unit, t = [⟨.close fd, answer⟩] ∧
      Delivers (fun _ => 0) (fun _ => -1) s answer s' result :=
  exec_hostCall_iff fun _ => rfl

/-! ## Failed opens -/

/-- The error of a failed `open`. -/
def openFailure : HostEvent → Option Errno
  | ⟨.openPath .., answer⟩ => failureOf answer
  | _ => none

def openFailures (t : HostTrace) : List Errno := t.filterMap openFailure

theorem openFailures_cons (event : HostEvent) (t : HostTrace) :
    openFailures (event :: t) = (openFailure event).toList ++ openFailures t := by
  cases failed : openFailure event <;> simp [openFailures, failed]

@[simp]
theorem openFailures_hostEvents (t : HostTrace) :
    openFailures (hostEvents t) = openFailures t :=
  filterMap_hostEvents fun ⟨c, _⟩ logged => by cases c <;> first | rfl | cases logged

/-! ## The final test of a result -/

/-- `if(retstat == -1) return -errno`, as four handlers end. -/
theorem exec_negatedErrno_iff {value : Int} :
    Exec s (getErrno.andThen fun errno => .done (-errno) : Handler Int) t s' value ↔
      t = [] ∧ s' = s ∧ value = -s.errno := by
  simp only [getErrno, Program.read_andThen, Program.done_andThen, exec_read_iff, exec_done_iff]

end NosqlFS
