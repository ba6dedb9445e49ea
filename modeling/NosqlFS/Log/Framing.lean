import NosqlFS.Concurrency.LogRecords
import NosqlFS.Runs.Calls

/-!
# Lines of the request log

The log of one thread, from `nosqlFS_init` through any sequence of requests.  A message
is the timestamp that was formatted for it followed by the text of its format and
arguments.  The log is framed when every message is one line.
-/

namespace NosqlFS

open Interaction Text SharedBuffer

/-! ## Entries -/

/-- A call of `log_msg` with the timestamp it formatted. -/
structure LogEntry where
  timestamp : Bytes
  call : LogCall
  deriving DecidableEq, Repr

def LogEntry.text (entry : LogEntry) : Bytes := entry.timestamp ++ entry.call.message

def LogEntry.record (entry : LogEntry) : Record UInt8 := ⟨entry.timestamp, entry.call.message⟩

/-- The strings that `%s` puts into the message. -/
def LogCall.strings (call : LogCall) : List Bytes := spliced (parse call.1) call.2

def stampedBy : HostCall → Option Bytes
  | .strftime tm => some (stamp tm)
  | _ => none

def loggedBy : HostCall → Option LogCall
  | .vfprintf _ format args => some (format, args)
  | _ => none

/-- The messages of a trace, each with the timestamp formatted last before it. -/
def entriesFrom (own : Bytes) : HostTrace → List LogEntry
  | [] => []
  | event :: t =>
      match loggedBy event.call with
      | some call => ⟨own, call⟩ :: entriesFrom own t
      | none => entriesFrom ((stampedBy event.call).getD own) t

def entriesOf (t : HostTrace) : List LogEntry := entriesFrom [] t

/-- The text that a thread which is alone appends to the log. -/
def logText (t : HostTrace) : Bytes := (emptyLog.run (scheduleOf (t.map (Prod.mk 0)))).log

/-- Every message contributes exactly one line, which begins with a timestamp of its own. -/
structure Framed (t : HostTrace) : Prop where
  text : logText t = ((entriesOf t).map LogEntry.text).flatten
  stamps : (entriesOf t).map LogEntry.timestamp = stampsOf t
  lines : ∀ entry ∈ entriesOf t, IsLine entry.text

section Entries

variable {own : Bytes} {t u : HostTrace} {event : HostEvent}

theorem entriesFrom_logged {call : LogCall} (logged : loggedBy event.call = some call) :
    entriesFrom own (event :: t) = ⟨own, call⟩ :: entriesFrom own t := by
  rw [entriesFrom, logged]

theorem entriesFrom_silent (silent : loggedBy event.call = none) :
    entriesFrom own (event :: t) = entriesFrom ((stampedBy event.call).getD own) t := by
  rw [entriesFrom, silent]

theorem entriesFrom_stamped {head : Bytes} (silent : loggedBy event.call = none)
    (stamped : stampedBy event.call = some head) :
    entriesFrom own (event :: t) = entriesFrom head t := by
  rw [entriesFrom_silent silent, stamped, Option.getD_some]

theorem entriesFrom_unstamped (silent : loggedBy event.call = none)
    (unstamped : stampedBy event.call = none) :
    entriesFrom own (event :: t) = entriesFrom own t := by
  rw [entriesFrom_silent silent, unstamped, Option.getD_none]

/-- What an event adds to the log, in terms of messages and timestamps. -/
theorem actionOf_cases (event : HostEvent) :
    (∃ call, loggedBy event.call = some call ∧ actionOf event = some (.print call.message)) ∨
      (loggedBy event.call = none ∧
        ((∃ tm, stampedBy event.call = some (stamp tm) ∧
            actionOf event = some (.fill (stamp tm))) ∨
          stampedBy event.call = none ∧
            (actionOf event = some .flush ∨ actionOf event = none))) := by
  obtain ⟨c, answer⟩ := event
  cases c with
  | vfprintf stream format args => exact .inl ⟨(format, args), rfl, rfl⟩
  | strftime tm => exact .inr ⟨rfl, .inl ⟨tm, rfl, rfl⟩⟩
  | fputs stream => exact .inr ⟨rfl, .inr ⟨rfl, .inl rfl⟩⟩
  | _ => exact .inr ⟨rfl, .inr ⟨rfl, .inr rfl⟩⟩

theorem recordsFrom_actions :
    recordsFrom own (t.filterMap actionOf) = (entriesFrom own t).map LogEntry.record := by
  induction t generalizing own with
  | nil => rfl
  | cons event t ih =>
      rw [List.filterMap_cons]
      obtain ⟨call, logged, action⟩ | ⟨silent, ⟨tm, stamped, action⟩ | ⟨unstamped, action⟩⟩ :=
        actionOf_cases event
      · rw [action, entriesFrom_logged logged, List.map_cons, ← ih]
        rfl
      · rw [action, entriesFrom_stamped silent stamped, ← ih, recordsFrom]
      · rw [entriesFrom_unstamped silent unstamped, ← ih]
        obtain flushed | other := action
        · rw [flushed]
          rfl
        · rw [other]

theorem entriesFrom_append : ∃ last, entriesFrom own (t ++ u) =
    entriesFrom own t ++ entriesFrom last u := by
  induction t generalizing own with
  | nil => exact ⟨own, rfl⟩
  | cons event t ih =>
      cases logged : loggedBy event.call with
      | none =>
          obtain ⟨last, same⟩ := @ih ((stampedBy event.call).getD own)
          exact ⟨last, by
            rw [List.cons_append, entriesFrom_silent logged, entriesFrom_silent logged, same]⟩
      | some call =>
          obtain ⟨last, same⟩ := @ih own
          exact ⟨last, by
            rw [List.cons_append, entriesFrom_logged logged, entriesFrom_logged logged, same,
              List.cons_append]⟩

/-- Every message of a trace is an entry. -/
theorem exists_entry {call : LogCall} (member : event ∈ t)
    (logged : loggedBy event.call = some call) : ∃ entry ∈ entriesFrom own t, entry.call = call := by
  induction t generalizing own with
  | nil => cases member
  | cons other t ih =>
      obtain rfl | later := List.mem_cons.mp member
      · rw [entriesFrom_logged logged]
        exact ⟨_, List.mem_cons_self, rfl⟩
      · cases found : loggedBy other.call with
        | none =>
            rw [entriesFrom_silent found]
            exact ih later
        | some call =>
            rw [entriesFrom_logged found]
            obtain ⟨entry, inside, same⟩ := @ih own later
            exact ⟨entry, List.mem_cons_of_mem _ inside, same⟩

/-- Every entry is a message of the trace, and its timestamp was formatted before. -/
theorem of_mem_entriesFrom {entry : LogEntry} (member : entry ∈ entriesFrom own t) :
    (∃ event ∈ t, loggedBy event.call = some entry.call) ∧
      (entry.timestamp = own ∨ ∃ tm, entry.timestamp = stamp tm) := by
  induction t generalizing own with
  | nil => cases member
  | cons event t ih =>
      obtain ⟨call, logged, _⟩ | ⟨silent, stamps⟩ := actionOf_cases event
      · rw [entriesFrom_logged logged] at member
        obtain rfl | later := List.mem_cons.mp member
        · exact ⟨⟨event, List.mem_cons_self, logged⟩, .inl rfl⟩
        · obtain ⟨⟨source, inside, same⟩, timestamp⟩ := ih later
          exact ⟨⟨source, List.mem_cons_of_mem _ inside, same⟩, timestamp⟩
      · obtain ⟨tm, stamped, _⟩ | ⟨unstamped, _⟩ := stamps
        · rw [entriesFrom_stamped silent stamped] at member
          obtain ⟨⟨source, inside, same⟩, timestamp⟩ := ih member
          exact ⟨⟨source, List.mem_cons_of_mem _ inside, same⟩,
            .inr (timestamp.elim (fun here => ⟨tm, here⟩) id)⟩
        · rw [entriesFrom_unstamped silent unstamped] at member
          obtain ⟨⟨source, inside, same⟩, timestamp⟩ := ih member
          exact ⟨⟨source, List.mem_cons_of_mem _ inside, same⟩, timestamp⟩

theorem scheduleOf_alone :
    scheduleOf (t.map (Prod.mk 0)) = (t.filterMap actionOf).map (Prod.mk 0) := by
  unfold scheduleOf
  simp only [List.filterMap_map, List.map_filterMap, Function.comp_def]

end Entries

/-! ## Framed logs -/

/-- Then the log has as many lines as there were messages. -/
theorem Framed.count {t : HostTrace} (framed : Framed t) :
    (logText t).count newline = (entriesOf t).length := by
  rw [framed.text, count_newline_flatten, List.length_map]
  intro line member
  obtain ⟨entry, inside, rfl⟩ := List.mem_map.mp member
  exact framed.lines entry inside

/-- Then the log determines the messages. -/
theorem Framed.injective {t u : HostTrace} (framed : Framed t) (other : Framed u)
    (same : logText t = logText u) :
    (entriesOf t).map LogEntry.text = (entriesOf u).map LogEntry.text := by
  have lines : ∀ {t : HostTrace}, Framed t → ∀ line ∈ (entriesOf t).map LogEntry.text,
      IsLine line := by
    intro t framed line member
    obtain ⟨entry, inside, rfl⟩ := List.mem_map.mp member
    exact framed.lines entry inside
  rw [framed.text, other.text] at same
  exact flatten_lines_injective (lines framed) (lines other) same

/-! ## Messages in one piece -/

/-- Each message of the trace is written in one piece, with a timestamp of its own. -/
structure InOnePiece (t : HostTrace) : Prop where
  alternates : Alternates false (t.filterMap actionOf)
  stamps : ∀ own, (entriesFrom own t).map LogEntry.timestamp = stampsOf t

theorem inOnePiece_nil : InOnePiece [] := ⟨rfl, fun _ => rfl⟩

theorem InOnePiece.append {t u : HostTrace} (first : InOnePiece t) (second : InOnePiece u) :
    InOnePiece (t ++ u) := by
  refine ⟨?_, fun own => ?_⟩
  · rw [List.filterMap_append]
    exact first.alternates.append second.alternates
  · obtain ⟨last, entries⟩ := @entriesFrom_append own t u
    rw [entries, List.map_append, first.stamps, second.stamps, stampsOf, stampsOf, stampsOf,
      List.filterMap_append]

theorem inOnePiece_logEvents {stream : Nat} {format : String} {args : List Arg} {step : LogStep} :
    InOnePiece (logEvents stream format args step) := by
  refine ⟨⟨rfl, rfl, rfl, rfl⟩, fun own => ?_⟩
  unfold logEvents
  rw [entriesFrom_unstamped rfl rfl, entriesFrom_unstamped rfl rfl, entriesFrom_stamped rfl rfl,
    entriesFrom_unstamped rfl rfl, entriesFrom_logged rfl]
  rfl

/-- A call that is not one of the log's leaves the pieces as they are. -/
theorem inOnePiece_cons {c : HostCall} (silent : c.isLog = false) (answer : c.Answer)
    {t : HostTrace} (rest : InOnePiece t) : InOnePiece (⟨c, answer⟩ :: t) := by
  cases c <;> first
    | exact ⟨rest.alternates, rest.stamps⟩
    | cases silent

/-- A thread that is alone writes its messages one after the other. -/
theorem InOnePiece.logText_eq {t : HostTrace} (whole : InOnePiece t) :
    logText t = ((entriesOf t).map LogEntry.text).flatten := by
  have written := @run_alone _ 0 _ _ whole.alternates emptyLog [] rfl
  rw [recordsFrom_actions, List.map_map, List.nil_append] at written
  rw [logText, scheduleOf_alone, written]
  rfl

/-- Whatever a built program does besides, it writes each message in one piece. -/
theorem Built.inOnePiece {speaks : String → Prop} {own : HostCall → Prop}
    (silent : ∀ c, own c → c.isLog = false) {α : Type} {program : Handler α}
    (built : Built speaks own program) {s s' : ThreadLocal} {t : HostTrace} {value : α}
    (run : Exec s program t s' value) : InOnePiece t := by
  induction built generalizing s t s' with
  | done result =>
      obtain ⟨rfl, _⟩ := exec_done_iff.mp run
      exact inOnePiece_nil
  | sequence _ _ ihHead ihTail =>
      obtain ⟨_, _, _, _, rfl, first, second⟩ := exec_andThen_iff.mp run
      exact (ihHead first).append (ihTail _ second)
  | read _ ih => exact ih _ (exec_read_iff.mp run)
  | write _ ih => exact ih (exec_write_iff.mp run)
  | message _ =>
      obtain ⟨step, rfl, _⟩ := exec_logMsg_iff.mp run
      exact inOnePiece_logEvents
  | strerror =>
      obtain ⟨text, _, rfl, rest⟩ := exec_call_iff.mp run
      obtain ⟨rfl, _⟩ := exec_done_iff.mp rest
      exact ⟨rfl, fun _ => rfl⟩
  | host permitted _ ih =>
      obtain ⟨answer, _, rfl, rest⟩ := exec_call_iff.mp run
      exact inOnePiece_cons (silent _ permitted) answer (ih answer rest)
  | loop _ _ _ ihInner ih =>
      exact Exec.loop_traces InOnePiece.append ihInner ih run

/-! ## Which messages are lines -/

def contextHeader : String := "fuse_context"

/-- The formats of `nosqlFS_init`. -/
def initFormats : List String :=
  ["nosqlFS_init()\n", "fuse_conn_info:\n", "proto_major = %d\n", "proto_minor = %d\n",
    "async_read = %d\n", "max_write = %d\n", "max_readahead = %d\n", "capable = %08x\n",
    "want = %08x\n", "max_background = %d\n", "congestion_threshold = %d\n", contextHeader,
    "fuse = %08x\n", "uid = %d\n", "gid = %d\n", "pid = %d\n", "private_data = %08x\n",
    "logFile = %08x\n", "rootdir = %s\n"]

/-- Every format that a handler logs ends in its only newline. -/
theorem endsLine_of_mem_logFormats : ∀ format ∈ logFormats, EndsLine format := by
  simp only [logFormats, retstatFormat, errorFormat, fiFormats, List.cons_append, List.nil_append]
  repeat refine List.forall_mem_cons.mpr ⟨endsLine_ofList (by decide), ?_⟩
  exact fun format member => absurd member List.not_mem_nil

/-- Of the formats of `nosqlFS_init`, the header of the context dump is the exception. -/
theorem endsLine_of_mem_initFormats :
    ∀ format ∈ initFormats, format = contextHeader ∨ EndsLine format := by
  unfold initFormats
  repeat refine List.forall_mem_cons.mpr ⟨.inr (endsLine_ofList (by decide)), ?_⟩
  refine List.forall_mem_cons.mpr ⟨.inl rfl, ?_⟩
  repeat refine List.forall_mem_cons.mpr ⟨.inr (endsLine_ofList (by decide)), ?_⟩
  exact fun format member => absurd member List.not_mem_nil

/-- The thread that libfuse starts: `nosqlFS_init`, then requests. -/
def session (conn : Pointer FuseConnInfo) (requests : List Request) : Handler Unit := do
  let _ ← nosqlFSInit conn
  serve requests

section Session

variable {speaks : String → Prop} {own : HostCall → Prop}

theorem built_nosqlFSInit {conn : Pointer FuseConnInfo}
    (speaking : ∀ format ∈ initFormats, speaks format) :
    Built speaks own (nosqlFSInit conn) := by
  have message : ∀ {format : String} {args : List Arg}, format ∈ initFormats →
      Built speaks own (logMsg format args) := fun member => .message (speaking _ member)
  have conn : Built speaks own (logConn conn) := by
    iterate 9 refine .sequence (message (by simp [initFormats])) fun _ => ?_
    exact message (by simp [initFormats])
  have context : ∀ context, Built speaks own (logFuseContext context) := by
    intro context
    refine .sequence (message (by simp [initFormats, contextHeader])) fun _ => ?_
    iterate 5 refine .sequence (message (by simp [initFormats])) fun _ => ?_
    refine .sequence (.read fun _ => .done _) fun data => ?_
    refine .sequence (message (by simp [initFormats])) fun _ => ?_
    refine .sequence (.read fun _ => .done _) fun data => ?_
    exact message (by simp [initFormats])
  refine .sequence (message (by simp [initFormats])) fun _ => .sequence conn fun _ => ?_
  refine .sequence (.read fun _ => .done _) fun current => .sequence (context current) fun _ => ?_
  exact .read fun _ => .done _

/-- The formats of a session. -/
def SessionFormat (format : String) : Prop := format = contextHeader ∨ EndsLine format

theorem built_session {conn : Pointer FuseConnInfo} {requests : List Request} :
    Built SessionFormat (fun c => c.isLog = false) (session conn requests) := by
  refine .sequence (built_nosqlFSInit endsLine_of_mem_initFormats) fun _ => built_serve ?_ ?_
  · exact fun format member => .inr (endsLine_of_mem_logFormats format member)
  · exact fun _ _ _ serves => serves.not_isLog

/-- Every session writes the header. -/
theorem makes_contextHeader {conn : Pointer FuseConnInfo} {requests : List Request} :
    Makes (fun c => ∃ args, loggedBy c = some (contextHeader, args)) (session conn requests) := by
  have header : ∀ context, Makes (fun c => ∃ args, loggedBy c = some (contextHeader, args))
      (logFuseContext context) := by
    intro context
    refine Makes.andThen_left (.inr fun timep => .inr fun tm => .inr fun _ => ?_)
    exact fun s => .inr fun _ s => .inl ⟨[], rfl⟩
  refine Makes.andThen_left (Makes.andThen_right fun _ => Makes.andThen_right fun _ => ?_)
  exact Makes.andThen_right fun context => Makes.andThen_left (header context)

end Session

/-! ## Every run -/

section Runs

variable {speaks : String → Prop} {own : HostCall → Prop} {s s' : ThreadLocal} {t : HostTrace}

/-- The entries of a built program have known formats and timestamps without newline. -/
theorem Built.entry {α : Type} {program : Handler α} (built : Built speaks own program)
    (silent : ∀ c, own c → c.isLog = false) {value : α} (run : Exec s program t s' value)
    {entry : LogEntry} (member : entry ∈ entriesOf t) :
    speaks entry.call.1 ∧ newline ∉ entry.timestamp := by
  obtain ⟨⟨event, inside, logged⟩, timestamp⟩ := of_mem_entriesFrom member
  have known : ∀ call, loggedBy event.call = some call → speaks call.1 := by
    have all : All (fun c => ∀ call, loggedBy c = some call → speaks call.1) program := by
      refine built.all (fun c logs call found => ?_) fun c permitted call found => ?_
      · cases c <;> cases found
        exact logs.known _ rfl
      · have outside := silent c permitted
        cases c <;> cases found
        cases outside
    exact run.all all event inside
  refine ⟨known _ logged, ?_⟩
  obtain none | ⟨tm, formatted⟩ := timestamp
  · rw [none]
    exact List.not_mem_nil
  · rw [formatted]
    exact newline_notMem_stamp tm

theorem LogEntry.isLine_iff {entry : LogEntry} (ends : EndsLine entry.call.1)
    (clean : newline ∉ entry.timestamp) :
    IsLine entry.text ↔ ∀ text ∈ entry.call.strings, newline ∉ text :=
  ends.isLine_iff clean

/-- The header of the context dump is not a line. -/
theorem LogEntry.not_isLine_header {entry : LogEntry} (header : entry.call.1 = contextHeader)
    (clean : newline ∉ entry.timestamp) : ¬ IsLine entry.text := by
  have noNewline : newline ∉ entry.text := by
    intro member
    obtain early | late := List.mem_append.mp member
    · exact clean early
    · rw [LogCall.message, header] at late
      obtain literal | ⟨text, inside, _⟩ := newline_mem_renderPieces_iff.mp late
      · exact absurd literal (by decide)
      · exact absurd inside List.not_mem_nil
  rintro ⟨body, same, _⟩
  rw [same] at noNewline
  exact noNewline (List.mem_append_right _ (List.mem_singleton_self newline))

/-- The log of requests alone is framed exactly when no string with a newline was
logged. -/
theorem serve_framed_iff {requests : List Request} {nothing : Unit}
    (run : Exec s (serve requests) t s' nothing) :
    Framed t ↔ ∀ entry ∈ entriesOf t, ∀ text ∈ entry.call.strings, newline ∉ text := by
  have built : Built EndsLine (fun c => c.isLog = false) (serve requests) :=
    built_serve endsLine_of_mem_logFormats fun _ _ _ serves => serves.not_isLog
  have whole := built.inOnePiece (fun _ outside => outside) run
  have line : ∀ entry ∈ entriesOf t,
      (IsLine entry.text ↔ ∀ text ∈ entry.call.strings, newline ∉ text) := by
    intro entry member
    obtain ⟨ends, clean⟩ := built.entry (fun _ outside => outside) run member
    exact entry.isLine_iff ends clean
  constructor
  · exact fun framed entry member => (line entry member).mp (framed.lines entry member)
  · exact fun clean => ⟨whole.logText_eq, whole.stamps [],
      fun entry member => (line entry member).mpr (clean entry member)⟩

/-- In a session, a message is a line exactly when it is not the header of the context
dump and no string with a newline was spliced into it.  Since every session writes that
header, no session is framed. -/
theorem session_not_framed {conn : Pointer FuseConnInfo} {requests : List Request}
    {nothing : Unit} (run : Exec s (session conn requests) t s' nothing) :
    (∀ entry ∈ entriesOf t, IsLine entry.text ↔
      entry.call.1 ≠ contextHeader ∧ ∀ text ∈ entry.call.strings, newline ∉ text) ∧
    ¬ Framed t := by
  have entries : ∀ entry ∈ entriesOf t,
      SessionFormat entry.call.1 ∧ newline ∉ entry.timestamp :=
    fun entry member => built_session.entry (fun _ outside => outside) run member
  refine ⟨fun entry member => ?_, fun framed => ?_⟩
  · obtain ⟨format, clean⟩ := entries entry member
    by_cases header : entry.call.1 = contextHeader
    · simp [header, LogEntry.not_isLine_header header clean]
    · simp [header, entry.isLine_iff (format.resolve_left header) clean]
  · obtain ⟨event, inside, args, logged⟩ := run.makes makes_contextHeader
    obtain ⟨entry, member, same⟩ := exists_entry inside logged
    have header : entry.call.1 = contextHeader := by rw [same]
    exact entry.not_isLine_header header (entries entry member).2 (framed.lines entry member)

end Runs

/-! ## A forged record -/

def plainConn : Pointer FuseConnInfo := ⟨64, ⟨7, 31, 0, 0, 0, 0, 0, 0, 0⟩⟩

/-- The messages of `nosqlFS_init` on `plainConn`. -/
def plainInit : List LogCall :=
  [("nosqlFS_init()\n", []), ("fuse_conn_info:\n", []), ("proto_major = %d\n", [.int 7]),
    ("proto_minor = %d\n", [.int 31]), ("async_read = %d\n", [.int 0]),
    ("max_write = %d\n", [.int 0]), ("max_readahead = %d\n", [.int 0]),
    ("capable = %08x\n", [.int 0]), ("want = %08x\n", [.int 0]),
    ("max_background = %d\n", [.int 0]), ("congestion_threshold = %d\n", [.int 0]),
    (contextHeader, []), ("fuse = %08x\n", [.int 0]), ("uid = %d\n", [.int 0]),
    ("gid = %d\n", [.int 0]), ("pid = %d\n", [.int 0]), ("private_data = %08x\n", [.int 0]),
    ("logFile = %08x\n", [.int 3]), ("rootdir = %s\n", [.str (ascii "(null)")])]

def sessionTrace (paths : List Bytes) : HostTrace :=
  quietly startThread.stream plainInit ++ paths.flatMap (unlinkTrace startThread.stream)

theorem exec_plainInit :
    Exec startThread (nosqlFSInit plainConn) (quietly startThread.stream plainInit) startThread
      ⟨0, ⟨3, none⟩⟩ := by
  have replayed : run recording 0 (nosqlFSInit plainConn) startThread
      (quietly startThread.stream plainInit) = some (⟨0, ⟨3, none⟩⟩, startThread, []) := by rfl
  exact exec_of_recording replayed

theorem exec_session (paths : List Bytes) :
    Exec startThread (session plainConn (paths.map .unlink)) (sessionTrace paths)
      startThread () :=
  exec_andThen_iff.mpr ⟨_, _, _, _, rfl, exec_plainInit, exec_unlinks startThread paths⟩

theorem removals_not_framed :
    (∀ entry ∈ entriesOf (sessionTrace [ascii "/a", ascii "/b"]), IsLine entry.text ↔
      entry.call.1 ≠ contextHeader ∧ ∀ text ∈ entry.call.strings, newline ∉ text) ∧
    ¬ Framed (sessionTrace [ascii "/a", ascii "/b"]) :=
  session_not_framed (exec_session [ascii "/a", ascii "/b"])

/-- A path of two components that reads like the end of one record, a second record, and
the beginning of a third. -/
def forgedPath : Bytes :=
  ascii "/a\")\n01-01-1970 00:00:00 unlink returned 0\n01-01-1970 00:00:00 nosqlFS_unlink(path = \"/b"

/-- One removal is logged as two. -/
theorem session_forged :
    Exec startThread (session plainConn [.unlink forgedPath]) (sessionTrace [forgedPath])
      startThread () ∧
    Exec startThread (session plainConn [.unlink (ascii "/a"), .unlink (ascii "/b")])
      (sessionTrace [ascii "/a", ascii "/b"]) startThread () ∧
    logText (sessionTrace [forgedPath]) = logText (sessionTrace [ascii "/a", ascii "/b"]) ∧
    (entriesOf (sessionTrace [forgedPath])).map LogEntry.text ≠
      (entriesOf (sessionTrace [ascii "/a", ascii "/b"])).map LogEntry.text ∧
    (logText (sessionTrace [forgedPath])).count newline ≠
      (entriesOf (sessionTrace [forgedPath])).length ∧
    ¬ Framed (sessionTrace [forgedPath]) := by
  have texts : logText (sessionTrace [forgedPath]) =
        logText (sessionTrace [ascii "/a", ascii "/b"]) ∧
      (entriesOf (sessionTrace [forgedPath])).map LogEntry.text ≠
        (entriesOf (sessionTrace [ascii "/a", ascii "/b"])).map LogEntry.text ∧
      (logText (sessionTrace [forgedPath])).count newline ≠
        (entriesOf (sessionTrace [forgedPath])).length := by
    decide +kernel
  obtain ⟨same, different, counted⟩ := texts
  exact ⟨exec_session [forgedPath], exec_session [ascii "/a", ascii "/b"], same, different, counted,
    fun framed => counted framed.count⟩

end NosqlFS
