import NosqlFS.Interaction.Pool
import NosqlFS.Interaction.SharedBuffer
import NosqlFS.Runs.Logging

/-!
# Records of concurrent log messages

Every message is three stdio calls: the timestamp is formatted into `time_buf`, that
buffer is written to the log, and the text follows.  The buffer and the log are shared
by all threads.
-/

namespace NosqlFS

open Interaction Text SharedBuffer

/-! ## The shared log -/

/-- What an event does to `time_buf` and the log; each stdio call is atomic. -/
def actionOf : HostEvent → Option (Action UInt8)
  | ⟨.strftime tm, _⟩ => some (.fill (stamp tm))
  | ⟨.fputs _, _⟩ => some .flush
  | ⟨.vfprintf _ format args, _⟩ => some (.print (render format args))
  | _ => none

def logStep (w : State UInt8) (entry : Nat × HostEvent) (w' : State UInt8) : Prop :=
  w' = (actionOf entry.2).elim w w.apply

/-- The stdio calls of a history. -/
def scheduleOf (history : History HostCall HostCall.Answer) : Schedule UInt8 :=
  history.filterMap fun entry => (actionOf entry.2).map (Prod.mk entry.1)

theorem follows_logStep_iff {history : History HostCall HostCall.Answer} {w w' : State UInt8} :
    Follows logStep w history w' ↔ w' = w.run (scheduleOf history) := by
  induction history generalizing w with
  | nil => exact follows_nil_iff
  | cons entry history ih =>
      simp only [follows_cons_iff, ih, logStep]
      cases found : actionOf entry.2 with
      | none => simp [scheduleOf, found]
      | some action => simp [scheduleOf, found, State.run]

theorem ofWriter_scheduleOf (i : Nat) (history : History HostCall HostCall.Answer) :
    ofWriter i (scheduleOf history) = (eventsOf i history).filterMap actionOf := by
  unfold ofWriter scheduleOf eventsOf
  rw [List.filterMap_filterMap, List.filterMap_filterMap]
  refine List.filterMap_congr fun entry _ => ?_
  by_cases same : entry.1 = i
  · cases found : actionOf entry.2 <;> simp [same, found]
  · cases actionOf entry.2 <;> simp [same]

/-! ## One thread -/

/-- A call of `log_msg`. -/
abbrev LogCall : Type := String × List Arg

def LogCall.message (call : LogCall) : Bytes := render call.1 call.2

/-- A sequence of `log_msg` calls. -/
def logMsgs : List LogCall → Handler Unit
  | [] => return ()
  | call :: rest => do
      logMsg call.1 call.2
      logMsgs rest

/-- The timestamps a thread formatted, in order. -/
def stampsOf (t : HostTrace) : List Bytes := t.filterMap fun
  | ⟨.strftime tm, _⟩ => some (stamp tm)
  | _ => none

/-- The records a thread should write: its own timestamps, its messages, in order. -/
def ownRecords (t : HostTrace) (calls : List LogCall) : List (Record UInt8) :=
  List.zipWith Record.mk (stampsOf t) (calls.map LogCall.message)

/-- A complete run formats one timestamp for each message and puts them together. -/
theorem exec_logMsgs {s s' : ThreadLocal} {t : HostTrace} {calls : List LogCall} {nothing : Unit}
    (run : Exec s (logMsgs calls) t s' nothing) :
    (stampsOf t).length = calls.length ∧ Alternates false (t.filterMap actionOf) ∧
      ∀ own, recordsFrom own (t.filterMap actionOf) = ownRecords t calls := by
  induction calls generalizing s t with
  | nil =>
      obtain ⟨rfl, _, _⟩ := exec_done_iff.mp run
      exact ⟨rfl, rfl, fun _ => rfl⟩
  | cons call calls ih =>
      obtain ⟨_, rest, _, _, rfl, message, later⟩ := exec_andThen_iff.mp run
      obtain ⟨step, rfl, _⟩ := exec_logMsg_iff.mp message
      obtain ⟨lengths, alternates, records⟩ := ih later
      refine ⟨congrArg Nat.succ lengths, ⟨rfl, rfl, rfl, alternates⟩, fun own => ?_⟩
      exact congrArg (List.cons _) (records _)

/-! ## Every interleaving -/

/-- The log has grown by whole records: each is one timestamp and one message of the
same call, those of each thread are in program order, and none is lost or duplicated. -/
def WholeRecords (before : Bytes) (calls : Nat → List LogCall)
    (history : History HostCall HostCall.Answer) (after : Bytes) : Prop :=
  (∀ i, (stampsOf (eventsOf i history)).length = (calls i).length) ∧
    Whole before (fun i => ownRecords (eventsOf i history) (calls i)) after

/-- The calls of the thread at a position. -/
def callsOf (threads : List (Thread (List LogCall) HostCall HostCall.Answer ThreadLocal Unit))
    (i : Nat) : List LogCall := (threads[i]?).elim [] Thread.label

/-- A schedule from a given content of `time_buf` is undisturbed: whenever a thread
writes `time_buf` to the log, it holds the timestamp this thread formatted, and every
timestamp written before has its message. -/
def Undisturbed (timeBuf : Bytes) (history : History HostCall HostCall.Answer) : Prop :=
  Orderly ⟨timeBuf, fun _ => [], none⟩ (scheduleOf history)

/-- In every undisturbed interleaving of any number of threads, the log grows by whole
records. -/
theorem logRecords_whole {w : State UInt8}
    {threads : List (Thread (List LogCall) HostCall HostCall.Answer ThreadLocal Unit)}
    (loggers : ∀ thread ∈ threads, thread.code = logMsgs thread.label)
    {history : History HostCall HostCall.Answer}
    {last : Pool (State UInt8) (List LogCall) HostCall HostCall.Answer ThreadLocal Unit}
    (reaches : Pool.Reaches (fun _ => False) logStep ⟨w, threads⟩ history last)
    (finished : ∀ thread ∈ last.threads, thread.Finished)
    (undisturbed : Undisturbed w.buffer history) :
    WholeRecords w.log (callsOf threads) history last.world.log := by
  have never : ∀ thread : Thread (List LogCall) HostCall HostCall.Answer ThreadLocal Unit,
      ¬ (fun _ => False) thread := fun _ impossible => impossible
  have each : ∀ i, (stampsOf (eventsOf i history)).length = (callsOf threads i).length ∧
      Alternates false ((eventsOf i history).filterMap actionOf) ∧
      ∀ own, recordsFrom own ((eventsOf i history).filterMap actionOf) =
        ownRecords (eventsOf i history) (callsOf threads i) := by
    intro i
    cases live : threads[i]? with
    | none =>
        rw [reaches.absent never live, callsOf, live]
        exact ⟨rfl, rfl, fun _ => rfl⟩
    | some thread =>
        obtain ⟨_, _, run⟩ := reaches.complete never finished live
        rw [loggers thread (List.mem_of_getElem? live)] at run
        rw [callsOf, live]
        exact exec_logMsgs run
  refine ⟨fun i => (each i).1, ?_⟩
  rw [follows_logStep_iff.mp reaches.follows]
  have whole := orderly_whole undisturbed rfl (fun i => ?_) (List.append_nil w.log).symm
  · simp only [ofWriter_scheduleOf] at whole
    simpa only [(each _).2.2] using whole
  · rw [ofWriter_scheduleOf]
    exact (each i).2.1

/-! ## Two schedules of two threads -/

def messageTrace (format : String) : HostTrace :=
  logEvents startThread.stream format [] quietStep

def writer (format : String) : Thread (List LogCall) HostCall HostCall.Answer ThreadLocal Unit :=
  ⟨[(format, [])], startThread, logMsgs [(format, [])]⟩

def twoWriters : List (Thread (List LogCall) HostCall HostCall.Answer ThreadLocal Unit) :=
  [writer "a\n", writer "b\n"]

def emptyLog : State UInt8 := ⟨[], []⟩

theorem exec_writer (format : String) :
    Exec startThread (logMsgs [(format, [])]) (messageTrace format) startThread () := by
  refine exec_andThen_iff.mpr ⟨_, [], startThread, (), (List.append_nil _).symm, ?_, .done _ _⟩
  exact exec_logMsg_iff.mpr ⟨quietStep, rfl, rfl⟩

/-- Every interleaving of the two messages is a history of the two threads. -/
theorem twoWriters_reaches {history : History HostCall HostCall.Answer}
    (inside : ∀ entry ∈ history, entry.1 < 2) (first : eventsOf 0 history = messageTrace "a\n")
    (second : eventsOf 1 history = messageTrace "b\n") :
    ∃ last, Pool.Reaches (fun _ => False) logStep ⟨emptyLog, twoWriters⟩ history last ∧
      last.world = emptyLog.run (scheduleOf history) ∧
        ∀ thread ∈ last.threads, thread.Finished := by
  refine Pool.Reaches.of_runs inside ?_ (follows_logStep_iff.mpr rfl)
  intro i thread live
  rcases i with _ | _ | i
  · cases live
    rw [first]
    exact ⟨_, _, exec_writer "a\n"⟩
  · cases live
    rw [second]
    exact ⟨_, _, exec_writer "b\n"⟩
  · cases live

theorem twoWriters_loggers : ∀ thread ∈ twoWriters, thread.code = logMsgs thread.label := by
  intro thread member
  rcases List.mem_cons.mp member with rfl | member
  · rfl
  · rw [List.mem_singleton.mp member]
    rfl

/-- The second thread waits until the first is done. -/
def serialHistory : History HostCall HostCall.Answer :=
  (messageTrace "a\n").map (Prod.mk 0) ++ (messageTrace "b\n").map (Prod.mk 1)

theorem serial_whole :
    WholeRecords [] (callsOf twoWriters) serialHistory
      (emptyLog.run (scheduleOf serialHistory)).log := by
  obtain ⟨last, reaches, world, finished⟩ :=
    @twoWriters_reaches serialHistory (by decide) rfl rfl
  have undisturbed : Undisturbed emptyLog.buffer serialHistory := by
    refine ⟨rfl, ?_, rfl, ?_, trivial⟩
    all_goals rfl
  have whole := logRecords_whole twoWriters_loggers reaches finished undisturbed
  rwa [world] at whole

/-- The second thread logs between the timestamp and the message of the first. -/
def tornHistory : History HostCall HostCall.Answer :=
  ((messageTrace "a\n").take 4).map (Prod.mk 0) ++ (messageTrace "b\n").map (Prod.mk 1) ++
    ((messageTrace "a\n").drop 4).map (Prod.mk 0)

/-- Two timestamps in a row are not the beginning of a record. -/
theorem torn_not_prefix {body : Bytes} (message : body = ascii "a\n" ∨ body = ascii "b\n")
    (rest : Bytes) :
    (emptyLog.run (scheduleOf tornHistory)).log ≠ (stamp newYear ++ body) ++ rest := by
  intro same
  have beginning := congrArg (List.take 22) same
  rcases message with rfl | rfl
  · rw [List.take_left' (by decide)] at beginning
    exact absurd beginning (by decide)
  · rw [List.take_left' (by decide)] at beginning
    exact absurd beginning (by decide)

/-- Two threads that log one line each can tear each other's record apart. -/
theorem logRecords_torn :
    ¬ ∀ (w : State UInt8)
      (threads : List (Thread (List LogCall) HostCall HostCall.Answer ThreadLocal Unit))
      (history : History HostCall HostCall.Answer)
      (last : Pool (State UInt8) (List LogCall) HostCall HostCall.Answer ThreadLocal Unit),
      (∀ thread ∈ threads, thread.code = logMsgs thread.label) →
      (∀ thread ∈ threads, ∀ call ∈ thread.label, IsLine call.message) →
      Pool.Reaches (fun _ => False) logStep ⟨w, threads⟩ history last →
      (∀ thread ∈ last.threads, thread.Finished) →
      WholeRecords w.log (callsOf threads) history last.world.log := by
  intro claim
  have lines : ∀ thread ∈ twoWriters, ∀ call ∈ thread.label, IsLine call.message := by
    intro thread member call inside
    rcases List.mem_cons.mp member with rfl | member
    · rw [List.mem_singleton.mp inside]
      exact ⟨ascii "a", rfl, by decide⟩
    · rw [List.mem_singleton.mp member] at inside
      rw [List.mem_singleton.mp inside]
      exact ⟨ascii "b", rfl, by decide⟩
  obtain ⟨last, reaches, world, finished⟩ :=
    @twoWriters_reaches tornHistory (by decide) rfl rfl
  obtain ⟨_, records, text, own⟩ := claim _ _ _ _ twoWriters_loggers lines reaches finished
  rw [world] at text
  cases records with
  | nil => exact absurd text (by decide)
  | cons entry rest =>
      obtain ⟨i, record⟩ := entry
      have mine := own i
      rw [ofWriter_cons_self] at mine
      have shape : ∃ body, (body = ascii "a\n" ∨ body = ascii "b\n") ∧
          record = ⟨stamp newYear, body⟩ := by
        rcases i with _ | _ | i
        · exact ⟨ascii "a\n", .inl rfl, (List.cons.inj mine).1⟩
        · exact ⟨ascii "b\n", .inr rfl, (List.cons.inj mine).1⟩
        · cases mine
      obtain ⟨body, message, rfl⟩ := shape
      rw [List.map_cons, List.flatten_cons, Record.text] at text
      exact torn_not_prefix message _ text

end NosqlFS
