import NosqlFS.Interaction.Offering
import NosqlFS.Interaction.Termination
import NosqlFS.Runs.Files

/-!
# A directory stream and a filler

The surroundings of `nosqlFS_readdir`: a directory that opens or not, whose stream
yields its entries and then ends or fails, and libfuse's filler, an arbitrary state
machine.  `Listed` is what the loop of the handler does between them.
-/

namespace NosqlFS

open Interaction Text

/-! ## Surroundings -/

/-- What `opendir` answers, the entries of the stream, and the error that ends it. -/
structure Directory where
  opened : Except Errno Nat
  entries : List Dirent
  ending : Option Errno

/-- What `readdir` answers after the last entry. -/
def Directory.stopped (directory : Directory) : ReaddirResult :=
  match directory.ending with
  | none => .finish
  | some e => .failed e

/-- The arguments of a call of the filler. -/
structure FillerCall where
  buf : Nat
  name : Bytes
  stbuf : Stat
  off : Int
  flags : Nat
  deriving DecidableEq, Repr

/-- A filler returns an `int` for each call; it refuses with a nonzero one. -/
abbrev Filler (State : Type) : Type := State → FillerCall → Int × State

/-- The call an entry is owed: its own name, `d_ino`, and `d_type` in the bits of the
file type; every other field of the attributes is zero, and so is the offset. -/
def entryCall (buf : Nat) (de : Dirent) : FillerCall :=
  ⟨buf, de.dName, ⟨0, de.dIno, de.dType.toNat <<< 12, 0, 0, 0, 0, 0, 0, 0, 0, 0, 0, 0, 0, 0⟩, 0, 0⟩

/-- A filler as an acceptor of entries. -/
def Filler.acceptor {State : Type} (filler : Filler State) (buf : Nat) : Acceptor State Dirent :=
  fun state de =>
    (decide ((filler state (entryCall buf de)).1 = 0), (filler state (entryCall buf de)).2)

/-- The entries still to come, and the state of the filler. -/
structure Listing (State : Type) where
  remaining : List Dirent
  state : State

variable {State : Type}

/-- How a directory and a filler take part in one call. -/
def listingStep (directory : Directory) (filler : Filler State) :
    Listing State → HostEvent → Listing State → Prop
  | w, ⟨.opendir _, answer⟩, w' => answer = directory.opened ∧ w' = w
  | w, ⟨.readdir _, answer⟩, w' =>
      match w.remaining with
      | [] => answer = directory.stopped ∧ w' = w
      | de :: rest => answer = .entry de ∧ w' = ⟨rest, w.state⟩
  | w, ⟨.filler buf name stbuf off flags, answer⟩, w' =>
      answer.result = (filler w.state ⟨buf, name, stbuf, off, flags⟩).1 ∧
        w' = ⟨w.remaining, (filler w.state ⟨buf, name, stbuf, off, flags⟩).2⟩
  | w, _, w' => w' = w

theorem listingStep_of_isLog (directory : Directory) (filler : Filler State)
    (w : Listing State) (event : HostEvent) (w' : Listing State)
    (logged : event.call.isLog = true) : listingStep directory filler w event w' ↔ w' = w := by
  obtain ⟨c, answer⟩ := event
  cases c <;> first | rfl | cases logged

/-- A message moves neither the stream nor the filler. -/
theorem follows_logEvents {directory : Directory} {filler : Filler State}
    {w w' : Listing State} {stream : Nat} {format : String} {args : List Arg} {step : LogStep}
    (follows : Follows (listingStep directory filler) w (logEvents stream format args step) w') :
    w' = w := by
  rwa [← follows_hostEvents_iff (listingStep_of_isLog directory filler), hostEvents_logEvents,
    follows_nil_iff] at follows

/-- A stream never gets entries back. -/
theorem listingStep_remaining_le {directory : Directory} {filler : Filler State}
    {w w' : Listing State} {event : HostEvent}
    (step : listingStep directory filler w event w') :
    w'.remaining.length ≤ w.remaining.length := by
  obtain ⟨c, answer⟩ := event
  cases c with
  | opendir path =>
      obtain ⟨_, rfl⟩ := step
      exact Nat.le_refl _
  | readdir dp =>
      obtain ⟨remaining, state⟩ := w
      cases remaining with
      | nil =>
          obtain ⟨_, rfl⟩ := step
          exact Nat.le_refl _
      | cons de rest =>
          obtain ⟨_, rfl⟩ := step
          exact Nat.le_succ _
  | filler buf name stbuf off flags =>
      obtain ⟨_, rfl⟩ := step
      exact Nat.le_refl _
  | _ =>
      cases step
      exact Nat.le_refl _

/-! ## Opening and closing -/

section Calls

variable {s s' : ThreadLocal} {t : HostTrace}

theorem exec_opendir_iff {path : Bytes} {opened : Option Nat} :
    Exec s (opendir path) t s' opened ↔ ∃ answer : Except Errno Nat,
      t = [⟨.opendir path, answer⟩] ∧
        ((∃ dp, answer = .ok dp ∧ s' = s ∧ opened = some dp) ∨
          ∃ e, answer = .error e ∧ s' = s.withErrno e.code ∧ opened = none) := by
  rw [opendir, exec_call_iff]
  constructor
  · rintro ⟨answer, u, rfl, rest⟩
    refine ⟨answer, ?_⟩
    cases answer with
    | ok dp =>
        obtain ⟨rfl, rfl, rfl⟩ := exec_done_iff.mp rest
        exact ⟨rfl, .inl ⟨dp, rfl, rfl, rfl⟩⟩
    | error e =>
        obtain ⟨_, _, _, _, rfl, set, ended⟩ := exec_andThen_iff.mp rest
        obtain ⟨rfl, rfl⟩ := exec_setErrno_iff.mp set
        obtain ⟨rfl, rfl, rfl⟩ := exec_done_iff.mp ended
        exact ⟨rfl, .inr ⟨e, rfl, rfl, rfl⟩⟩
  · rintro ⟨answer, rfl, ⟨dp, rfl, rfl, rfl⟩ | ⟨e, rfl, rfl, rfl⟩⟩
    · exact ⟨.ok dp, [], rfl, .done _ _⟩
    · exact ⟨.error e, [], rfl, exec_andThen_iff.mpr
        ⟨[], [], _, (), rfl, exec_setErrno_iff.mpr ⟨rfl, rfl⟩, .done _ _⟩⟩

theorem exec_closedir_iff {dp : Nat} {result : Int} :
    Exec s (closedir dp) t s' result ↔ ∃ answer : Except Errno Unit,
      t = [⟨.closedir dp, answer⟩] ∧ Delivers (fun _ => 0) (fun _ => -1) s answer s' result :=
  exec_hostCall_iff fun _ => rfl

end Calls

/-! ## The loop -/

/-- The calls of the loop from a state of the filler, over the entries to come. -/
inductive Listed (directory : Directory) (filler : Filler State) (dp buf : Nat) :
    State → List Dirent → HostTrace → Prop where
  | stopped (state : State) :
      Listed directory filler dp buf state [] [⟨.readdir dp, directory.stopped⟩]
  | refused {state : State} {de : Dirent} {rest : List Dirent} {answer : FillerResult}
      (returned : answer.result = (filler state (entryCall buf de)).1)
      (refusal : answer.result ≠ 0) :
      Listed directory filler dp buf state (de :: rest)
        [⟨.readdir dp, .entry de⟩, ⟨.filler buf de.dName (direntStat de) 0 0, answer⟩]
  | accepted {state : State} {de : Dirent} {rest : List Dirent} {answer : FillerResult}
      {t : HostTrace} (returned : answer.result = (filler state (entryCall buf de)).1)
      (acceptance : answer.result = 0)
      (later : Listed directory filler dp buf (filler state (entryCall buf de)).2 rest t) :
      Listed directory filler dp buf state (de :: rest)
        (⟨.readdir dp, .entry de⟩ :: ⟨.filler buf de.dName (direntStat de) 0 0, answer⟩ :: t)

section Runs

variable {s s' : ThreadLocal} {t : HostTrace} {dp buf : Nat} {directory : Directory}
  {filler : Filler State} {state : State} {entries : List Dirent}

/-- One pass stops at the end of the stream, or hands one entry to the filler. -/
theorem exec_readdirPass {again : Bool} (run : Exec s (readdirPass dp buf) t s' again) :
    (∃ answer : ReaddirResult, (∀ de, answer ≠ .entry de) ∧
      hostEvents t = [⟨.readdir dp, answer⟩] ∧ again = false) ∨
    ∃ (de : Dirent) (answer : FillerResult), hostEvents t = [⟨.readdir dp, .entry de⟩,
        ⟨.filler buf de.dName (direntStat de) 0 0, answer⟩] ∧
      again = decide (answer.result = 0) := by
  have reading : (HostCall.readdir dp).isLog = false := rfl
  simp only [readdirPass, readdir, Program.bind_eq, Program.pure_eq, Program.call_andThen,
    exec_call_iff] at run
  obtain ⟨answer, u, rfl, rest⟩ := run
  cases answer with
  | entry de =>
      simp only [Program.done_andThen, NosqlFS.filler, Program.call_andThen, exec_andThen_iff,
        exec_logMsg_iff, exec_call_iff, applyEffect, Program.bind_eq, Program.pure_eq,
        Program.read_andThen, Program.write_andThen, exec_read_iff, exec_write_iff,
        exec_done_iff] at rest
      obtain ⟨_, _, _, _, rfl, ⟨step, rfl, rfl⟩, answer, _, rfl, rfl, _, rfl⟩ := rest
      have filling : (HostCall.filler buf de.dName (direntStat de) 0 0).isLog = false := rfl
      refine .inr ⟨de, answer, ?_, rfl⟩
      simp [hostEvents_cons, reading, filling]
  | finish =>
      simp only [Program.done_andThen, exec_done_iff] at rest
      obtain ⟨rfl, _, rfl⟩ := rest
      exact .inl ⟨.finish, by simp, by simp [hostEvents_cons, reading], rfl⟩
  | failed e =>
      simp only [Program.andThen_assoc, Program.done_andThen, exec_andThen_iff,
        exec_setErrno_iff, exec_done_iff] at rest
      obtain ⟨_, _, _, _, rfl, ⟨rfl, rfl⟩, rfl, _, rfl⟩ := rest
      exact .inl ⟨.failed e, by simp, by simp [hostEvents_cons, reading], rfl⟩

/-- The loop hands over entries until one is refused or the stream stops, and then
leaves for what follows it. -/
theorem exec_readdirLoop {next : Handler Int} {value : Int} {w' : Listing State}
    (run : Exec s (.loop (readdirPass dp buf) next) t s' value)
    (follows : Follows (listingStep directory filler) ⟨entries, state⟩ t w') :
    ∃ u rest middle, hostEvents t = u ++ hostEvents rest ∧
      Listed directory filler dp buf state entries u ∧ Exec middle next rest s' value := by
  induction entries generalizing s t state with
  | nil =>
      obtain ⟨first, rest, middle, again, rfl, pass, left⟩ :=
        exec_andThen_iff.mp (exec_loop_iff.mp run)
      obtain ⟨at', started, _⟩ := follows_append_iff.mp follows
      rw [← follows_hostEvents_iff (listingStep_of_isLog directory filler)] at started
      rcases exec_readdirPass pass with ⟨answer, _, made, rfl⟩ | ⟨de, answer, made, rfl⟩
      · rw [made, follows_cons_iff] at started
        obtain ⟨_, ⟨rfl, rfl⟩, _⟩ := started
        exact ⟨_, rest, middle, by rw [hostEvents_append, made], .stopped state, left⟩
      · rw [made, follows_cons_iff] at started
        obtain ⟨_, ⟨ended, _⟩, _⟩ := started
        simp only [Directory.stopped] at ended
        split at ended <;> cases ended
  | cons entry entries ih =>
      obtain ⟨first, rest, middle, again, rfl, pass, left⟩ :=
        exec_andThen_iff.mp (exec_loop_iff.mp run)
      obtain ⟨at', started, going⟩ := follows_append_iff.mp follows
      rw [← follows_hostEvents_iff (listingStep_of_isLog directory filler)] at started
      rcases exec_readdirPass pass with ⟨answer, stopped, made, rfl⟩ | ⟨de, answer, made, rfl⟩
      · rw [made, follows_cons_iff] at started
        obtain ⟨_, ⟨rfl, _⟩, _⟩ := started
        exact absurd rfl (stopped entry)
      · rw [made] at started
        simp only [follows_cons_iff, follows_nil_iff] at started
        obtain ⟨_, ⟨same, rfl⟩, _, ⟨returned, rfl⟩, rfl⟩ := started
        cases same
        by_cases acceptance : answer.result = 0
        · simp only [acceptance, decide_true, ↓reduceIte] at left
          obtain ⟨u, later, last, split, listed, ended⟩ := ih left going
          refine ⟨_, later, last, ?_, .accepted returned acceptance listed, ended⟩
          rw [hostEvents_append, made, split]
          rfl
        · simp only [acceptance, decide_false, Bool.false_eq_true, ↓reduceIte] at left
          exact ⟨_, rest, middle, by rw [hostEvents_append, made],
            .refused returned acceptance, left⟩

/-- The two ways through the handler: the directory does not open, or its stream is
listed and closed. -/
theorem exec_nosqlFSReaddir {path : Bytes} {fillerAddress flags : Nat} {offset : Int}
    {fi : Pointer FuseFileInfo} {reply : Int} {w' : Listing State}
    (run : Exec s (nosqlFSReaddir path buf fillerAddress offset fi flags) t s' reply)
    (follows : Follows (listingStep directory filler) ⟨directory.entries, state⟩ t w') :
    (∃ e, directory.opened = .error e ∧ hostEvents t = [⟨.opendir path, .error e⟩] ∧
      reply ≠ 0 ∧ (LogsKeepErrno t → reply = -e.code)) ∨
    ∃ (dp : Nat) (u : HostTrace) (closed : Except Errno Unit), directory.opened = .ok dp ∧
      Listed directory filler dp buf state directory.entries u ∧
      hostEvents t = ⟨.opendir path, .ok dp⟩ :: (u ++ [⟨.closedir dp, closed⟩]) ∧
      reply = 0 := by
  have opening : (HostCall.opendir path).isLog = false := rfl
  have closing : ∀ dp, (HostCall.closedir dp).isLog = false := fun _ => rfl
  simp only [nosqlFSReaddir, Program.bind_eq, Program.pure_eq, exec_andThen_iff,
    exec_opendir_iff] at run
  obtain ⟨_, _, s₁, _, rfl, entry, _, t₂, s₂, _, rfl, ⟨answer, rfl, opens⟩, rest⟩ := run
  obtain ⟨step, rfl, rfl⟩ := exec_logMsg_iff.mp entry
  rw [follows_append_iff] at follows
  obtain ⟨_, logged, opened⟩ := follows
  obtain rfl := follows_logEvents logged
  rw [List.singleton_append, follows_cons_iff] at opened
  obtain ⟨_, ⟨same, rfl⟩, later⟩ := opened
  rcases opens with ⟨dp, rfl, rfl, rfl⟩ | ⟨e, rfl, rfl, rfl⟩
  · simp only [exec_andThen_iff] at rest
    obtain ⟨_, t₃, s₃, _, rfl, announced, looped⟩ := rest
    obtain ⟨announcement, rfl, rfl⟩ := exec_logMsg_iff.mp announced
    obtain ⟨_, silent, listing⟩ := follows_append_iff.mp later
    obtain rfl := follows_logEvents silent
    obtain ⟨u, rest, middle, split, listed, left⟩ := exec_readdirLoop looped listing
    obtain ⟨_, _, _, _, rfl, closes, ended⟩ := exec_andThen_iff.mp left
    obtain ⟨closed, rfl, _⟩ := exec_closedir_iff.mp closes
    obtain ⟨rfl, _, rfl⟩ := exec_done_iff.mp ended
    refine .inr ⟨dp, u, closed, same.symm, listed, ?_, rfl⟩
    simp [hostEvents_cons, opening, closing, split]
  · obtain ⟨text, error, rfl, rfl, rfl⟩ := exec_logError_iff.mp rest
    have positive := e.positive
    refine .inl ⟨e, same.symm, ?_, ?_, ?_⟩
    · simp [hostEvents_cons, opening]
    · have nonzero : error.effect.apply e.code ≠ 0 := error.effect.apply_ne_zero (by omega)
      simpa using nonzero
    · intro quiet
      have kept : step.effect = .keep ∧ error.effect = .keep := by
        simpa [LogsKeepErrno, messages_cons, messageOf] using quiet
      rw [kept.2, withErrno_errno, ErrnoEffect.apply_keep]

end Runs

/-! ## What the loop leaves in a trace -/

/-- The calls other than those of the log. -/
def hostCalls (t : HostTrace) : List HostCall := (hostEvents t).map Event.call

def fillerCallOf : HostEvent → Option FillerCall
  | ⟨.filler buf name stbuf off flags, _⟩ => some ⟨buf, name, stbuf, off, flags⟩
  | _ => none

/-- The calls of the filler, in order. -/
def fillerCalls (t : HostTrace) : List FillerCall := t.filterMap fillerCallOf

def refusal : HostEvent → Prop
  | ⟨.filler .., answer⟩ => answer.result ≠ 0
  | _ => False

/-- The filler refused an entry. -/
def FillerRefused (t : HostTrace) : Prop := ∃ event ∈ t, refusal event

def closingOf : HostEvent → Option Nat
  | ⟨.closedir dp, _⟩ => some dp
  | _ => none

/-- The streams that were closed, in order. -/
def closings (t : HostTrace) : List Nat := t.filterMap closingOf

@[simp]
theorem fillerCalls_hostEvents (t : HostTrace) : fillerCalls (hostEvents t) = fillerCalls t :=
  filterMap_hostEvents fun ⟨c, _⟩ logged => by cases c <;> first | rfl | cases logged

@[simp]
theorem closings_hostEvents (t : HostTrace) : closings (hostEvents t) = closings t :=
  filterMap_hostEvents fun ⟨c, _⟩ logged => by cases c <;> first | rfl | cases logged

theorem refusal_filler_iff {buf flags : Nat} {name : Bytes} {stbuf : Stat} {off : Int}
    {answer : FillerResult} :
    refusal ⟨.filler buf name stbuf off flags, answer⟩ ↔ answer.result ≠ 0 := Iff.rfl

theorem not_refusal_readdir {dp : Nat} {answer : ReaddirResult} :
    ¬ refusal ⟨.readdir dp, answer⟩ := id

theorem fillerRefused_nil_iff : FillerRefused [] ↔ False := by
  simp only [FillerRefused, List.not_mem_nil, false_and, exists_false]

theorem fillerRefused_cons_iff {event : HostEvent} {t : HostTrace} :
    FillerRefused (event :: t) ↔ refusal event ∨ FillerRefused t := by
  simp only [FillerRefused, List.mem_cons, or_and_right, exists_or, exists_eq_left]

theorem fillerRefused_append_iff {t u : HostTrace} :
    FillerRefused (t ++ u) ↔ FillerRefused t ∨ FillerRefused u := by
  simp only [FillerRefused, List.mem_append, or_and_right, exists_or]

theorem fillerRefused_hostEvents_iff {t : HostTrace} :
    FillerRefused (hostEvents t) ↔ FillerRefused t := by
  constructor
  · rintro ⟨event, member, refused⟩
    exact ⟨event, (mem_hostEvents_iff.mp member).1, refused⟩
  · rintro ⟨⟨c, answer⟩, member, refused⟩
    refine ⟨⟨c, answer⟩, mem_hostEvents_iff.mpr ⟨member, ?_⟩, refused⟩
    cases c <;> first | rfl | cases refused

section Listed

variable {directory : Directory} {filler : Filler State} {dp buf : Nat} {state : State}
  {entries : List Dirent} {t : HostTrace}

theorem acceptor_accepts {de : Dirent} {answer : FillerResult}
    (returned : answer.result = (filler state (entryCall buf de)).1)
    (acceptance : answer.result = 0) : ((filler.acceptor buf) state de).1 = true :=
  decide_eq_true (returned.symm.trans acceptance)

theorem acceptor_refuses {de : Dirent} {answer : FillerResult}
    (returned : answer.result = (filler state (entryCall buf de)).1)
    (refusal : answer.result ≠ 0) : ¬ ((filler.acceptor buf) state de).1 = true :=
  fun accepted => refusal (returned.trans (of_decide_eq_true accepted))

/-- The calls of one offering: each entry is read and handed over, and the stream is
read once more unless the last entry was refused. -/
def offeringCalls (dp buf : Nat) (offered : List Dirent) (refused : Bool) : List HostCall :=
  offered.flatMap (fun de => [.readdir dp, .filler buf de.dName (direntStat de) 0 0]) ++
    if refused then [] else [.readdir dp]

theorem Listed.calls (listed : Listed directory filler dp buf state entries t) :
    t.map Event.call = offeringCalls dp buf ((filler.acceptor buf).offered state entries)
      ((filler.acceptor buf).refuses state entries) := by
  induction listed with
  | stopped state => rfl
  | refused returned refusal =>
      have kept := acceptor_refuses returned refusal
      rw [Acceptor.offered_of_refused kept, Acceptor.refuses_of_refused kept]
      rfl
  | accepted returned acceptance later ih =>
      have taken := acceptor_accepts returned acceptance
      rw [Acceptor.offered_of_accepted taken, Acceptor.refuses_of_accepted taken,
        List.map_cons, List.map_cons, ih]
      rfl

theorem Listed.fillerCalls (listed : Listed directory filler dp buf state entries t) :
    fillerCalls t = ((filler.acceptor buf).offered state entries).map (entryCall buf) := by
  induction listed with
  | stopped state => rfl
  | refused returned refusal =>
      rw [Acceptor.offered_of_refused (acceptor_refuses returned refusal)]
      rfl
  | accepted returned acceptance later ih =>
      rw [Acceptor.offered_of_accepted (acceptor_accepts returned acceptance), List.map_cons]
      exact congrArg (List.cons _) ih

theorem Listed.refused_iff (listed : Listed directory filler dp buf state entries t) :
    FillerRefused t ↔ (filler.acceptor buf).refuses state entries = true := by
  induction listed with
  | stopped state =>
      simp only [fillerRefused_cons_iff, fillerRefused_nil_iff, not_refusal_readdir,
        Acceptor.refuses, or_self, Bool.false_eq_true]
  | refused returned refusal =>
      rw [Acceptor.refuses_of_refused (acceptor_refuses returned refusal)]
      simp only [fillerRefused_cons_iff, refusal_filler_iff, ne_eq, refusal, not_false_eq_true,
        true_or, or_true]
  | accepted returned acceptance later ih =>
      rw [Acceptor.refuses_of_accepted (acceptor_accepts returned acceptance)]
      refine Iff.trans ?_ ih
      simp only [fillerRefused_cons_iff, refusal_filler_iff, not_refusal_readdir, ne_eq,
        acceptance, not_true_eq_false, false_or]

/-- The loop closes nothing. -/
theorem Listed.closings (listed : Listed directory filler dp buf state entries t) :
    closings t = [] := by
  induction listed with
  | stopped state => rfl
  | refused returned refusal => rfl
  | accepted returned acceptance later ih => exact ih

/-- A `readdir` of the loop that yields no entry is the one that stops the stream. -/
theorem Listed.stopped_of_mem (listed : Listed directory filler dp buf state entries t)
    {other : Nat} {answer : ReaddirResult} (noEntry : ∀ de, answer ≠ .entry de)
    (member : (⟨.readdir other, answer⟩ : HostEvent) ∈ t) : answer = directory.stopped := by
  induction listed with
  | stopped state =>
      cases List.mem_singleton.mp member
      rfl
  | @refused _ de =>
      simp only [List.mem_cons, List.not_mem_nil, or_false] at member
      rcases member with same | same
      · cases same
        exact absurd rfl (noEntry de)
      · cases same
  | @accepted _ de _ _ _ _ _ _ ih =>
      simp only [List.mem_cons] at member
      rcases member with same | same | later
      · cases same
        exact absurd rfl (noEntry de)
      · cases same
      · exact ih later

/-- A filler that refuses nothing is fed until the stream stops. -/
theorem Listed.stops (listed : Listed directory filler dp buf state entries t)
    (acceptsAll : ¬ (filler.acceptor buf).refuses state entries = true) :
    (⟨.readdir dp, directory.stopped⟩ : HostEvent) ∈ t := by
  induction listed with
  | stopped state => exact List.mem_singleton.mpr rfl
  | refused returned refusal =>
      exact absurd (Acceptor.refuses_of_refused (acceptor_refuses returned refusal)) acceptsAll
  | accepted returned acceptance later ih =>
      rw [Acceptor.refuses_of_accepted (acceptor_accepts returned acceptance)] at acceptsAll
      exact List.mem_cons_of_mem _ (List.mem_cons_of_mem _ (ih acceptsAll))

end Listed

end NosqlFS
