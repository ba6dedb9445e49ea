import NosqlFS.Interaction.Pool
import NosqlFS.Runs.Calls
import NosqlFS.Errors.Transfer

/-!
# Descriptors of concurrent requests

The process table maps descriptors to what opened them.  Each invocation sees the part
it opened itself; the protocol of an invocation lets it open its own path, use what it
has opened, and requires everything closed at the end.  A directory stream is named by
the descriptor it occupies.
-/

namespace NosqlFS

open Interaction Text

/-! ## The process table -/

/-- A table of open descriptors, with some record of each. -/
abbrev Descriptors (ε : Type) : Type := Nat → Option ε

/-- The table entry that a descriptor can name; a negative number names none. -/
def natural (fd : Int) : Option Nat := if 0 ≤ fd then some fd.toNat else none

theorem natural_of_nonneg {fd : Int} (nonneg : 0 ≤ fd) : natural fd = some fd.toNat := if_pos nonneg

theorem natural_of_neg {fd : Int} (negative : fd < 0) : natural fd = none := if_neg (by omega)

@[simp]
theorem natural_natCast (n : Nat) : natural n = some n := by
  rw [natural_of_nonneg (Int.natCast_nonneg n), Int.toNat_natCast]

/-- The table entry that a call names. -/
def HostCall.descriptor : HostCall → Option Nat
  | .pread fd _ _ _ => natural fd
  | .pwrite fd _ _ _ => natural fd
  | .close fd => natural fd
  | .readdir dp => some dp
  | .closedir dp => some dp
  | _ => none

def ErrnoEffect.Positive : ErrnoEffect → Prop
  | .keep => True
  | .set value _ => 0 < value

theorem ErrnoEffect.Positive.apply {effect : ErrnoEffect} (positive : effect.Positive)
    {errno : Int} (before : 0 < errno) : 0 < effect.apply errno := by
  cases effect with
  | keep => exact before
  | set value nonzero => exact positive

/-- What an answered call does to the table.  A close removes its entry whatever it
returns. -/
inductive Change where
  | keep
  | add (fd : Nat) (path : Bytes)
  | remove (fd : Nat)

def HostCall.change : (c : HostCall) → c.Answer → Change
  | .openPath path _ _, .ok fd => .add fd path
  | .opendir path, .ok dp => .add dp path
  | .close fd, _ => (natural fd).elim .keep .remove
  | .closedir dp, _ => .remove dp
  | _, _ => .keep

/-- Writing the log sets `errno` to nothing but error numbers. -/
def HostCall.LogsErrors : (c : HostCall) → c.Answer → Prop
  | .vfprintf .., effect => effect.Positive
  | _, _ => True

/-- A new descriptor is one that was not in the table. -/
def Change.Applies {ε : Type} (record : Bytes → ε) (table : Descriptors ε) :
    Change → Descriptors ε → Prop
  | .keep, next => next = table
  | .add fd path, next =>
      table fd = none ∧ next = Function.update table fd (some (record path))
  | .remove fd, next => next = Function.update table fd none

/-- An entry of the process table: the invocation that opened it, if one of the
requests did, and the path. -/
structure Entry where
  owner : Option Nat
  path : Bytes
  deriving DecidableEq, Repr

/-- One call of an invocation on the process table. -/
def tableStep (table : Descriptors Entry) (entry : Nat × HostEvent)
    (next : Descriptors Entry) : Prop :=
  entry.2.call.LogsErrors entry.2.answer ∧
    (entry.2.call.change entry.2.answer).Applies (fun path => ⟨some entry.1, path⟩) table next

/-- The path of an entry, for the invocation that opened it. -/
def Entry.pathFor (i : Nat) (entry : Entry) : Option Bytes :=
  if entry.owner = some i then some entry.path else none

/-- What an invocation has opened and not closed. -/
def ownedBy (table : Descriptors Entry) (i : Nat) : Descriptors Bytes :=
  fun fd => (table fd).bind (Entry.pathFor i)

/-- What no invocation has opened. -/
def unowned (table : Descriptors Entry) : Descriptors Entry :=
  fun fd => (table fd).filter fun entry => entry.owner.isNone

theorem ownedBy_eq_some_iff {table : Descriptors Entry} {i fd : Nat} {path : Bytes} :
    ownedBy table i fd = some path ↔ table fd = some ⟨some i, path⟩ := by
  unfold ownedBy Entry.pathFor
  constructor
  · intro held
    obtain ⟨⟨owner, other⟩, found, visible⟩ := Option.bind_eq_some_iff.mp held
    split at visible
    · next same =>
        cases same
        cases visible
        exact found
    · cases visible
  · intro found
    rw [found]
    simp

@[simp]
theorem ownedBy_update (table : Descriptors Entry) (i fd : Nat) (entry : Option Entry) :
    ownedBy (Function.update table fd entry) i =
      Function.update (ownedBy table i) fd (entry.bind (Entry.pathFor i)) := by
  funext other
  by_cases same : other = fd
  · subst same
    simp [ownedBy]
  · simp [ownedBy, Function.update_of_ne same]

@[simp]
theorem unowned_update (table : Descriptors Entry) (fd : Nat) (entry : Option Entry) :
    unowned (Function.update table fd entry) =
      Function.update (unowned table) fd (entry.filter fun entry => entry.owner.isNone) := by
  funext other
  by_cases same : other = fd
  · subst same
    simp [unowned]
  · simp [unowned, Function.update_of_ne same]

/-! ## The protocol of an invocation -/

/-- Open own paths, and name only what is held. -/
def mayCall (paths : List Bytes) (held : Descriptors Bytes) (c : HostCall) : Prop :=
  (∀ path ∈ c.paths, path ∈ paths) ∧
    ∀ fd, c.descriptor = some fd → ∃ path ∈ paths, held fd = some path

def descriptorProtocol (request : Request) :
    Protocol HostCall HostCall.Answer (Descriptors Bytes) where
  permits := mayCall request.paths
  after := fun held c answer next =>
    c.LogsErrors answer ∧ (c.change answer).Applies id held next

def noDescriptors : Descriptors Bytes := fun _ => none

/-- A call that removes an entry names it. -/
theorem descriptor_of_change_remove {c : HostCall} {answer : c.Answer} {fd : Nat}
    (removes : c.change answer = .remove fd) : c.descriptor = some fd := by
  cases c with
  | close named =>
      have closes : (natural named).elim Change.keep Change.remove = .remove fd := removes
      show natural named = some fd
      cases found : natural named with
      | none =>
          rw [found] at closes
          cases closes
      | some n =>
          rw [found] at closes
          cases closes
          rfl
  | closedir dp =>
      cases removes
      rfl
  | openPath => cases answer <;> cases removes
  | opendir => cases answer <;> cases removes
  | _ => cases removes

/-- Permitted calls keep the invocations apart. -/
theorem descriptors_private : Pool.Private descriptorProtocol ownedBy tableStep := by
  intro request i event table next permitted step
  obtain ⟨logged, applies⟩ := step
  obtain ⟨_, held⟩ := permitted
  cases changed : event.call.change event.answer with
  | keep =>
      rw [changed] at applies
      obtain rfl : next = table := applies
      exact ⟨⟨logged, by rw [changed]; rfl⟩, fun _ _ => rfl⟩
  | add fd path =>
      rw [changed] at applies
      obtain ⟨free, rfl⟩ := applies
      refine ⟨⟨logged, ?_⟩, fun j other => ?_⟩
      · rw [changed]
        refine ⟨by simp [ownedBy, free], ?_⟩
        rw [ownedBy_update]
        simp [Entry.pathFor]
      · rw [ownedBy_update, Function.update_eq_self_iff]
        simp [Entry.pathFor, ownedBy, free, Ne.symm other]
  | remove fd =>
      rw [changed] at applies
      obtain rfl : next = Function.update table fd none := applies
      obtain ⟨path, _, holds⟩ := held fd (descriptor_of_change_remove changed)
      have found := ownedBy_eq_some_iff.mp holds
      refine ⟨⟨logged, ?_⟩, fun j other => ?_⟩
      · rw [changed, ownedBy_update]
        rfl
      · rw [ownedBy_update, Function.update_eq_self_iff]
        simp [Entry.pathFor, ownedBy, found, Ne.symm other]

/-- Permitted calls leave alone what no invocation has opened. -/
theorem unowned_tableStep {request : Request} {i : Nat} {event : HostEvent}
    {table next : Descriptors Entry}
    (permitted : (descriptorProtocol request).permits (ownedBy table i) event.call)
    (step : tableStep table (i, event) next) : unowned next = unowned table := by
  obtain ⟨_, applies⟩ := step
  cases changed : event.call.change event.answer with
  | keep =>
      rw [changed] at applies
      exact congrArg unowned applies
  | add fd path =>
      rw [changed] at applies
      obtain ⟨free, rfl⟩ := applies
      rw [unowned_update, Function.update_eq_self_iff]
      simp [unowned, free]
  | remove fd =>
      rw [changed] at applies
      obtain rfl : next = Function.update table fd none := applies
      obtain ⟨path, _, holds⟩ := permitted.2 fd (descriptor_of_change_remove changed)
      rw [unowned_update, Function.update_eq_self_iff]
      unfold unowned
      rw [ownedBy_eq_some_iff.mp holds]
      rfl

/-! ## Verification conditions -/

section Conditions

variable {request : Request} {s : ThreadLocal} {held : Descriptors Bytes}

/-- A call on own paths that neither names nor makes a descriptor. -/
structure Neutral (paths : List Bytes) (c : HostCall) : Prop where
  ownPaths : ∀ path ∈ c.paths, path ∈ paths
  nameless : c.descriptor = none
  still : ∀ answer, c.change answer = .keep

theorem Neutral.mayCall {paths : List Bytes} {c : HostCall} (neutral : Neutral paths c) :
    mayCall paths held c := by
  refine ⟨neutral.ownPaths, fun fd named => ?_⟩
  rw [neutral.nameless] at named
  cases named

theorem neutral_of_isLog {paths : List Bytes} {c : HostCall} (logged : c.isLog = true) :
    Neutral paths c := by
  cases c <;> first
    | exact absurd logged Bool.false_ne_true
    | exact ⟨fun path member => absurd member List.not_mem_nil, rfl, fun _ => rfl⟩

theorem mayCall_of_isLog {paths : List Bytes} {c : HostCall} (logged : c.isLog = true) :
    mayCall paths held c := (neutral_of_isLog logged).mayCall

theorem wp_of_neutral {α : Type} {program : Handler α} (all : All (Neutral request.paths) program) :
    (descriptorProtocol request).wp program (fun _ _ held' => held' = held) s held := by
  refine Protocol.wp_of_all (fun c neutral => ⟨neutral.mayCall, ?_⟩) all
  rintro answer after ⟨_, applies⟩
  rw [neutral.still] at applies
  exact applies

theorem wp_of_built {α : Type} {program : Handler α}
    (built : Built (fun _ => True) (Neutral request.paths) program) :
    (descriptorProtocol request).wp program (fun _ _ held' => held' = held) s held :=
  wp_of_neutral (built.all (fun _ logs => neutral_of_isLog logs.isLog) fun _ own => own)

theorem wp_logMsg {format : String} {args : List Arg} {post : Unit → ThreadLocal →
    Descriptors Bytes → Prop}
    (sent : ∀ effect : ErrnoEffect, effect.Positive →
      post () (s.withErrno (effect.apply s.errno)) held) :
    (descriptorProtocol request).wp (logMsg format args) post s held := by
  refine ⟨mayCall_of_isLog rfl, ?_⟩
  rintro timep _ ⟨_, rfl⟩
  refine ⟨mayCall_of_isLog rfl, ?_⟩
  rintro tm _ ⟨_, rfl⟩
  refine ⟨mayCall_of_isLog rfl, ?_⟩
  rintro _ _ ⟨_, rfl⟩
  refine ⟨mayCall_of_isLog rfl, ?_⟩
  rintro _ _ ⟨_, rfl⟩
  refine ⟨mayCall_of_isLog rfl, ?_⟩
  rintro effect _ ⟨positive, rfl⟩
  exact sent effect positive

/-- `log_syscall` passes a descriptor through and turns an error into a negative number. -/
theorem wp_logSyscall {func : String} {retstat : Int} {post : Int → ThreadLocal →
    Descriptors Bytes → Prop}
    (passed : 0 ≤ retstat → post retstat s held)
    (failed : retstat < 0 → ∀ value s', (0 < s.errno → value < 0) → post value s' held) :
    (descriptorProtocol request).wp (logSyscall func retstat 0) post s held := by
  unfold logSyscall logRetstat
  simp only [Program.bind_eq, Protocol.wp_andThen]
  refine wp_logMsg fun _ _ => ?_
  by_cases low : retstat < 0
  · rw [if_pos low]
    simp only [logError, Program.bind_eq, Protocol.wp_andThen]
    refine ⟨mayCall_of_isLog rfl, ?_⟩
    rintro text _ ⟨_, rfl⟩
    refine wp_logMsg fun effect positive => failed low _ _ fun before => ?_
    have after := positive.apply before
    simp only [withErrno_errno]
    exact Int.neg_neg_of_pos after
  · rw [if_neg low]
    exact passed (by omega)

/-- A call that follows the C convention. -/
theorem wp_hostCall {α : Type} {c : HostCall} {next : c.Answer → Handler Int} {value : α → Int}
    {outcome : c.Answer → Except Errno α}
    (follows : ∀ answer, next answer = fromHost value (outcome answer))
    {post : Int → ThreadLocal → Descriptors Bytes → Prop} (permitted : mayCall request.paths held c)
    (done : ∀ answer result s' after, (c.change answer).Applies id held after →
      Delivers value (fun _ => -1) s (outcome answer) s' result → post result s' after) :
    (descriptorProtocol request).wp (.call c next) post s held := by
  refine ⟨permitted, ?_⟩
  rintro answer after ⟨_, applies⟩
  rw [follows]
  cases found : outcome answer with
  | ok got => exact done answer _ _ after applies (.inl ⟨got, found, rfl, rfl⟩)
  | error e => exact done answer _ _ after applies (.inr ⟨e, found, rfl, rfl⟩)

/-- Exactly one descriptor on the path, or nothing for a negative number. -/
def holding (fd : Int) (path : Bytes) : Descriptors Bytes :=
  (natural fd).elim noDescriptors fun n => Function.update noDescriptors n (some path)

theorem holding_of_neg {fd : Int} (negative : fd < 0) (path : Bytes) :
    holding fd path = noDescriptors := by
  rw [holding, natural_of_neg negative]
  rfl

/-- What is held may be transferred on and closed. -/
theorem mayCall_holding {fd : Int} {path : Bytes} (own : path ∈ request.paths) {c : HostCall}
    (noPaths : c.paths = []) (named : c.descriptor = natural fd) :
    mayCall request.paths (holding fd path) c := by
  refine ⟨fun other member => ?_, fun n found => ⟨path, own, ?_⟩⟩
  · rw [noPaths] at member
    cases member
  · rw [named] at found
    simp [holding, found]

theorem wp_openLogged {path : Bytes} (own : path ∈ request.paths) {flags mode : Nat}
    {rest : Int → Handler Int} {post : Int → ThreadLocal → Descriptors Bytes → Prop}
    (opened : ∀ fd s', (descriptorProtocol request).wp (rest fd) post s' (holding fd path)) :
    (descriptorProtocol request).wp ((openPath path flags mode).andThen fun result =>
      (logSyscall "open" result 0).andThen rest) post s noDescriptors := by
  have permitted : mayCall request.paths noDescriptors (.openPath path flags mode) := by
    refine ⟨fun other member => ?_, fun n named => by cases named⟩
    rw [List.mem_singleton.mp member]
    exact own
  simp only [Protocol.wp_andThen]
  refine wp_hostCall (fun _ => rfl) permitted ?_
  rintro answer result s' after applies delivers
  simp only [Delivers] at delivers
  rcases delivers with ⟨fd, rfl, rfl, rfl⟩ | ⟨e, rfl, rfl, rfl⟩
  · obtain ⟨_, rfl⟩ := applies
    have held : Function.update noDescriptors fd (some (id path)) = holding fd path := by
      simp [holding]
    rw [held]
    exact wp_logSyscall (fun _ => opened _ _) fun low => absurd low (by omega)
  · obtain rfl : after = noDescriptors := applies
    refine wp_logSyscall (fun high => absurd high (by decide)) fun _ value s' negative => ?_
    have below := negative (Int.lt_of_lt_of_le Int.zero_lt_one e.positive)
    rw [← holding_of_neg below path]
    exact opened value s'

theorem update_holding {n : Nat} {path : Bytes} :
    Function.update (holding n path) n none = noDescriptors := by
  rw [holding, natural_natCast, Option.elim_some, Function.update_idem,
    Function.update_eq_self_iff]
  rfl

theorem wp_closeHeld {fd : Int} {path : Bytes} (own : path ∈ request.paths)
    {post : Int → ThreadLocal → Descriptors Bytes → Prop}
    (closed : ∀ result s', post result s' noDescriptors) :
    (descriptorProtocol request).wp (close fd) post s (holding fd path) := by
  refine wp_hostCall (fun _ => rfl) (mayCall_holding own rfl rfl) ?_
  intro answer result s' after applies _
  have emptied : after = noDescriptors := by
    rcases Int.lt_or_le fd 0 with negative | nonneg
    · simp only [HostCall.change, natural_of_neg negative, Option.elim_none,
        holding_of_neg negative] at applies
      exact applies
    · obtain ⟨n, rfl⟩ := Int.eq_ofNat_of_zero_le nonneg
      simp only [HostCall.change, natural_natCast, Option.elim_some] at applies
      exact applies.trans update_holding
  rw [emptied]
  exact closed result s'

theorem wp_closedirHeld {dp : Nat} {path : Bytes} (own : path ∈ request.paths)
    {post : Int → ThreadLocal → Descriptors Bytes → Prop}
    (closed : ∀ result s', post result s' noDescriptors) :
    (descriptorProtocol request).wp (closedir dp) post s (holding dp path) := by
  refine wp_hostCall (fun _ => rfl) (mayCall_holding own rfl (natural_natCast dp).symm) ?_
  intro answer result s' after applies _
  rw [show after = noDescriptors from applies.trans update_holding]
  exact closed result s'

theorem wp_opendir {path : Bytes} (own : path ∈ request.paths)
    {post : Option Nat → ThreadLocal → Descriptors Bytes → Prop}
    (opened : ∀ dp : Nat, post (some dp) s (holding dp path))
    (failed : ∀ s', post none s' noDescriptors) :
    (descriptorProtocol request).wp (opendir path) post s noDescriptors := by
  refine ⟨⟨fun other member => ?_, fun n named => by cases named⟩, ?_⟩
  · rw [List.mem_singleton.mp member]
    exact own
  · rintro (e | dp) after ⟨_, applies⟩
    · obtain rfl : after = noDescriptors := applies
      exact failed _
    · obtain ⟨_, rfl⟩ := applies
      have held : Function.update noDescriptors dp (some (id path)) = holding dp path := by
        simp [holding]
      rw [held]
      exact opened dp

/-- A transfer on what is held, with its result logged. -/
theorem wp_transferLogged {fd : Int} {path : Bytes} (own : path ∈ request.paths) {c : HostCall}
    {α : Type} {next : c.Answer → Handler Int} {value : α → Int}
    {outcome : c.Answer → Except Errno α}
    (follows : ∀ answer, next answer = fromHost value (outcome answer))
    (noPaths : c.paths = []) (named : c.descriptor = natural fd)
    (still : ∀ answer, c.change answer = .keep) {func : String} {rest : Int → Handler Int}
    {post : Int → ThreadLocal → Descriptors Bytes → Prop}
    (moved : ∀ retstat s', (descriptorProtocol request).wp (rest retstat) post s'
      (holding fd path)) :
    (descriptorProtocol request).wp ((Program.call c next).andThen fun result =>
      (logSyscall func (toInt result) 0).andThen rest) post s (holding fd path) := by
  simp only [Protocol.wp_andThen]
  refine wp_hostCall follows (mayCall_holding own noPaths named) ?_
  intro answer result s' after applies _
  rw [still] at applies
  obtain rfl : after = holding fd path := applies
  exact wp_logSyscall (fun _ => moved _ _) fun _ value s' _ => moved value s'

end Conditions

/-! ## The handlers -/

/-- Nothing is held when an invocation returns. -/
def closesAll : Int → ThreadLocal → Descriptors Bytes → Prop := fun _ _ held => held = noDescriptors

theorem wp_nosqlFSRead {path : Bytes} {buf size : Nat} {offset : Int}
    {fi : Pointer FuseFileInfo} {s : ThreadLocal} :
    (descriptorProtocol (.read path buf size offset fi)).wp (nosqlFSRead path buf size offset fi)
      closesAll s noDescriptors := by
  have own : path ∈ (Request.read path buf size offset fi).paths := List.mem_singleton_self path
  refine wp_openLogged own fun fd s' => ?_
  split
  · next refused =>
      subst refused
      rfl
  · simp only [Program.bind_eq]
    rw [Protocol.wp_andThen]
    refine wp_logMsg fun _ _ => ?_
    refine wp_transferLogged own (fun _ => rfl) rfl rfl (fun _ => rfl) fun retstat s' => ?_
    rw [Protocol.wp_andThen]
    exact wp_closeHeld own fun _ _ => rfl

theorem wp_nosqlFSWrite {path : Bytes} {buf : Pointer Bytes} {size : Nat} {offset : Int}
    {fi : Pointer FuseFileInfo} {s : ThreadLocal} :
    (descriptorProtocol (.write path buf size offset fi)).wp
      (nosqlFSWrite path buf size offset fi) closesAll s noDescriptors := by
  have own : path ∈ (Request.write path buf size offset fi).paths := List.mem_singleton_self path
  simp only [nosqlFSWrite, Program.bind_eq]
  rw [Protocol.wp_andThen]
  refine wp_logMsg fun _ _ => wp_openLogged own fun fd s' => ?_
  split
  · next refused =>
      subst refused
      rfl
  · refine wp_transferLogged own (fun _ => rfl) rfl rfl (fun _ => rfl) fun retstat s' => ?_
    rw [Protocol.wp_andThen]
    exact wp_closeHeld own fun _ _ => rfl

theorem wp_nosqlFSOpen {path : Bytes} {fi : Pointer FuseFileInfo} {s : ThreadLocal} :
    (descriptorProtocol (.openFile path fi)).wp (nosqlFSOpen path fi) closesAll s
      noDescriptors := by
  have own : path ∈ (Request.openFile path fi).paths := List.mem_singleton_self path
  simp only [nosqlFSOpen, Program.bind_eq]
  rw [Protocol.wp_andThen]
  refine wp_logMsg fun _ _ => wp_openLogged own fun fd s' => ?_
  rw [Protocol.wp_andThen]
  refine Protocol.wp_mono ?_ (wp_of_built (built_logFi fun _ _ => trivial))
  rintro _ s' held rfl
  split
  · next refused =>
      subst refused
      rfl
  · rw [Protocol.wp_andThen]
    exact wp_closeHeld own fun _ _ => rfl

/-- The branches of `mknod` close what they open. -/
theorem wp_mknodBranches {path : Bytes} {mode rdev : Nat} {s : ThreadLocal} :
    (descriptorProtocol (.mknod path mode rdev)).wp (mknodBranches path mode rdev)
      closesAll s noDescriptors := by
  have own : path ∈ (Request.mknod path mode rdev).paths := List.mem_singleton_self path
  have neutral : ∀ c : HostCall, c.paths = [path] → c.descriptor = none →
      (∀ answer, c.change answer = .keep) → Neutral (Request.mknod path mode rdev).paths c :=
    fun c named nameless still => ⟨fun other member => by rwa [named] at member, nameless, still⟩
  unfold mknodBranches
  split
  · refine wp_openLogged own fun retstat s' => ?_
    split
    · simp only [Program.bind_eq]
      rw [Protocol.wp_andThen]
      refine wp_closeHeld own fun result s' => ?_
      exact wp_logSyscall (fun _ => rfl) fun _ _ _ _ => rfl
    · next negative => exact holding_of_neg (by omega) path
  · split
    · refine wp_of_built (.sequence (built_hostCall (fun _ => rfl) ?_) fun made => ?_)
      · exact neutral _ rfl rfl fun _ => rfl
      · exact built_logSyscall fun _ _ => trivial
    · refine wp_of_built (.sequence (built_hostCall (fun _ => rfl) ?_) fun made => ?_)
      · exact neutral _ rfl rfl fun _ => rfl
      · exact built_logSyscall fun _ _ => trivial

theorem wp_nosqlFSMknod {path : Bytes} {mode rdev : Nat} {s : ThreadLocal} :
    (descriptorProtocol (.mknod path mode rdev)).wp (nosqlFSMknod path mode rdev)
      closesAll s noDescriptors := by
  simp only [nosqlFSMknod, Program.bind_eq]
  rw [Protocol.wp_andThen]
  refine wp_logMsg fun _ _ => ?_
  rw [Protocol.wp_andThen]
  refine Protocol.wp_mono ?_ wp_mknodBranches
  rintro retstat s' held rfl
  split
  · rfl
  · rfl

theorem wp_nosqlFSReaddir {path : Bytes} {buf fill : Nat} {offset : Int}
    {fi : Pointer FuseFileInfo} {flags : Nat} {s : ThreadLocal} :
    (descriptorProtocol (.readdir path buf fill offset fi flags)).wp
      (nosqlFSReaddir path buf fill offset fi flags) closesAll s noDescriptors := by
  have own : path ∈ (Request.readdir path buf fill offset fi flags).paths :=
    List.mem_singleton_self path
  simp only [nosqlFSReaddir, Program.bind_eq]
  rw [Protocol.wp_andThen]
  refine wp_logMsg fun _ _ => ?_
  rw [Protocol.wp_andThen]
  refine wp_opendir own (fun dp => ?_) fun s' => ?_
  · show (descriptorProtocol _).wp ((logMsg _ _).andThen fun _ => _) closesAll _ _
    rw [Protocol.wp_andThen]
    refine wp_logMsg fun _ _ => ⟨fun _ held => held = holding dp path, rfl, ?_⟩
    rintro s held rfl
    have inLoop : All (fun c => mayCall (Request.readdir path buf fill offset fi flags).paths
        (holding dp path) c ∧ ∀ answer, c.change answer = .keep) (readdirPass dp buf) := by
      let waits : HostCall → Prop := fun c =>
        mayCall (Request.readdir path buf fill offset fi flags).paths (holding dp path) c ∧
          ∀ answer, c.change answer = .keep
      have built : Built (fun _ => True) waits (readdirPass dp buf) := by
        refine built_readdirPass (fun _ _ => trivial) ?_ fun de => ?_
        · exact ⟨mayCall_holding own rfl (natural_natCast dp).symm, fun _ => rfl⟩
        · have neutral : Neutral (Request.readdir path buf fill offset fi flags).paths
              (.filler buf de.dName (direntStat de) 0 0) :=
            ⟨fun other member => absurd member List.not_mem_nil, rfl, fun _ => rfl⟩
          exact ⟨neutral.mayCall, neutral.still⟩
      refine built.all (fun c logs => ?_) fun _ own => own
      have neutral : Neutral (Request.readdir path buf fill offset fi flags).paths c :=
        neutral_of_isLog logs.isLog
      exact ⟨neutral.mayCall, neutral.still⟩
    refine Protocol.wp_mono ?_ (Protocol.wp_of_all ?_ inLoop)
    · rintro again s' held rfl
      cases again with
      | true => rfl
      | false =>
          show (descriptorProtocol _).wp ((closedir dp).andThen fun _ => _) closesAll _ _
          rw [Protocol.wp_andThen]
          exact wp_closedirHeld own fun _ _ => rfl
    · rintro c ⟨permitted, still⟩
      refine ⟨permitted, ?_⟩
      rintro answer after ⟨_, applies⟩
      rw [still] at applies
      exact applies
  · exact wp_of_built (built_logError fun _ _ => trivial)

/-- Every handler keeps to its protocol and closes what it opens. -/
theorem wp_nosqlFSOper {request : Request} {s : ThreadLocal} :
    (descriptorProtocol request).wp (nosqlFSOper request) closesAll s noDescriptors := by
  have onlyNeutral : (∀ c, request.Serves c → Neutral request.paths c) →
      (descriptorProtocol request).wp (nosqlFSOper request) closesAll s noDescriptors :=
    fun neutral => wp_of_neutral (all_nosqlFSOper (fun _ => neutral_of_isLog) neutral)
  cases request with
  | readdir => exact wp_nosqlFSReaddir
  | mknod => exact wp_nosqlFSMknod
  | openFile => exact wp_nosqlFSOpen
  | read => exact wp_nosqlFSRead
  | write => exact wp_nosqlFSWrite
  | _ =>
      refine onlyNeutral fun c serves => ?_
      have own := serves.paths
      cases serves <;> exact ⟨own, rfl, fun _ => rfl⟩

/-! ## Every interleaving -/

/-- A thread about to serve its request. -/
def Invoked (thread : Thread Request HostCall HostCall.Answer ThreadLocal Int) : Prop :=
  thread.code = nosqlFSOper thread.label

/-- What was there before the requests is there unchanged. -/
def Restores (initial table : Descriptors Entry) : Prop := unowned table = initial

/-- A table in which nobody holds anything is the initial one. -/
theorem Restores.eq {initial table : Descriptors Entry} (restores : Restores initial table)
    (released : ∀ i, ownedBy table i = noDescriptors) : table = initial := by
  refine Eq.trans ?_ restores
  funext fd
  cases found : table fd with
  | none => simp [unowned, found]
  | some entry =>
      obtain ⟨owner, path⟩ := entry
      cases owner with
      | none => simp [unowned, found, Option.filter]
      | some i =>
          have holds := ownedBy_eq_some_iff.mpr found
          rw [released i] at holds
          cases holds

/-- A table that no request has touched. -/
theorem restores_self {initial : Descriptors Entry}
    (before : ∀ fd entry, initial fd = some entry → entry.owner = none) :
    Restores initial initial := by
  funext fd
  cases found : initial fd with
  | none => simp [unowned, found]
  | some entry => simp [unowned, found, Option.filter, before fd entry found]

theorem ownedBy_initial {initial : Descriptors Entry}
    (before : ∀ fd entry, initial fd = some entry → entry.owner = none) (i : Nat) :
    ownedBy initial i = noDescriptors := by
  funext fd
  cases found : initial fd with
  | none => simp [ownedBy, found, noDescriptors]
  | some entry => simp [ownedBy, found, noDescriptors, Entry.pathFor, before fd entry found]

/-- Whatever the interleaving, an invocation names only entries that it opened itself
on its own path and has not closed, and with no invocation in flight the process table
is the initial one. -/
theorem descriptors_disciplined {initial : Descriptors Entry}
    (before : ∀ fd entry, initial fd = some entry → entry.owner = none)
    {history : History HostCall HostCall.Answer}
    {last : Pool (Descriptors Entry) Request HostCall HostCall.Answer ThreadLocal Int}
    (reaches : Pool.Reaches Invoked tableStep ⟨initial, []⟩ history last) :
    (∀ i thread event register code, last.threads[i]? = some thread →
      Emits thread.register thread.code event register code →
      ∀ fd, event.call.descriptor = some fd →
        ∃ path ∈ thread.label.paths, last.world fd = some ⟨some i, path⟩) ∧
    ((∀ thread ∈ last.threads, thread.Finished) → last.world = initial) := by
  have first : Pool.Disciplined descriptorProtocol (fun _ => closesAll) ownedBy noDescriptors
      (⟨initial, []⟩ : Pool (Descriptors Entry) Request HostCall HostCall.Answer ThreadLocal Int) :=
    ⟨fun i thread live => absurd live (by simp), fun i _ => ownedBy_initial before i⟩
  have starts : ∀ thread, Invoked thread → (descriptorProtocol thread.label).wp thread.code
      closesAll thread.register noDescriptors := by
    intro thread invoked
    rw [show thread.code = nosqlFSOper thread.label from invoked]
    exact wp_nosqlFSOper
  have disciplined := reaches.disciplined starts descriptors_private first
  have kept : Restores initial last.world :=
    reaches.keeps_world starts descriptors_private
      (fun _ _ _ _ _ permitted step same => (unowned_tableStep permitted step).trans same)
      first (restores_self before)
  refine ⟨fun i thread event register code live emits fd named => ?_, fun finished => ?_⟩
  · obtain ⟨path, own, holds⟩ := (disciplined.permits live emits).2 fd named
    exact ⟨path, own, ownedBy_eq_some_iff.mp holds⟩
  · refine kept.eq fun i => ?_
    by_cases inside : i < last.threads.length
    · have live := List.getElem?_eq_getElem inside
      obtain ⟨_, _, released⟩ :=
        disciplined.finished live (finished _ (List.getElem_mem inside))
      exact released
    · exact disciplined.waiting i (Nat.le_of_not_lt inside)

/-! ## One run -/

/-- The process table with the log file in it. -/
def logOnly : Descriptors Entry := fun fd =>
  if fd = 3 then some ⟨none, ascii "../log/nosqlFS_1-1-1970.log"⟩ else none

/-- Messages that keep `errno` pass over the table. -/
theorem follows_messages {table : Descriptors Entry} {i : Nat} {t : HostTrace}
    (logs : ∀ event ∈ t, event.call.isLog = true ∧ event.call.LogsErrors event.answer) :
    Follows tableStep table (t.map (Prod.mk i)) table := by
  induction t with
  | nil => exact .nil _
  | cons event t ih =>
      obtain ⟨logged, errors⟩ := logs event List.mem_cons_self
      have still := (show Neutral [] event.call from neutral_of_isLog logged).still event.answer
      have step : tableStep table (i, event) table := ⟨errors, by rw [still]; rfl⟩
      exact .cons step (ih fun other member => logs other (List.mem_cons_of_mem _ member))

/-- A read of `/a` that gets this descriptor, and what it does then. -/
def openOn (fd : Nat) : HostTrace := [⟨.openPath (ascii "/a") oRdonly 0, .ok fd⟩]

def readOn (fd : Nat) : HostTrace :=
  retstatEvents startThread.stream "open" fd quietStep ++ readMessage ++
    ⟨.pread fd 32 8 0, .ok [104, 105]⟩ ::
      (retstatEvents startThread.stream "pread" 2 quietStep ++ [⟨.close fd, .error .eio⟩])

theorem follows_openOn {table : Descriptors Entry} {i fd : Nat} (free : table fd = none) :
    Follows tableStep table ((openOn fd).map (Prod.mk i))
      (Function.update table fd (some ⟨some i, ascii "/a"⟩)) :=
  .cons ⟨trivial, free, rfl⟩ (.nil _)

theorem follows_readOn {table : Descriptors Entry} {i fd : Nat} :
    Follows tableStep table ((readOn fd).map (Prod.mk i)) (Function.update table fd none) := by
  have reads : tableStep table (i, ⟨.pread fd 32 8 0, .ok [104, 105]⟩) table := ⟨trivial, rfl⟩
  have closes : tableStep table (i, ⟨.close fd, .error .eio⟩) (Function.update table fd none) := by
    refine ⟨trivial, ?_⟩
    simp [HostCall.change, Change.Applies]
  unfold readOn
  simp only [List.map_cons, List.map_append, follows_cons_iff, follows_append_iff]
  refine ⟨table, ⟨table, ?_, ?_⟩, table, reads, table, ?_, _, closes, .nil _⟩
  all_goals
    refine follows_messages fun event member => ?_
    simp only [retstatEvents, readMessage, logEvents, List.mem_cons, List.not_mem_nil,
      or_false] at member
    rcases member with rfl | rfl | rfl | rfl | rfl <;> exact ⟨rfl, trivial⟩

/-- Two reads at a time: the third one gets the descriptor that the first one has closed while
the second one still holds its own. -/
def readsTogether : History HostCall HostCall.Answer :=
  (openOn 4).map (Prod.mk 0) ++ (openOn 5).map (Prod.mk 1) ++ (readOn 4).map (Prod.mk 0) ++
    (openOn 4).map (Prod.mk 2) ++ (readOn 5).map (Prod.mk 1) ++ (readOn 4).map (Prod.mk 2)

theorem exec_readOn : ∀ fd ∈ [4, 5], ∃ register value,
    Exec startThread (nosqlFSOper (.read (ascii "/a") 32 8 0 plainFile)) (openOn fd ++ readOn fd)
      register value := by
  intro fd member
  rcases List.mem_pair.mp member with rfl | rfl
  · exact ⟨_, _, exec_shortRead⟩
  · have replayed : run recording 0 (nosqlFSOper (.read (ascii "/a") 32 8 0 plainFile)) startThread
        (openOn 5 ++ readOn 5) = some (2, startThread.withErrno 5, []) := by rfl
    exact ⟨_, _, exec_of_recording replayed⟩

theorem follows_readsTogether : ∃ table, Follows tableStep logOnly readsTogether table := by
  unfold readsTogether
  simp only [follows_append_iff]
  exact ⟨_, _, ⟨_, ⟨_, ⟨_, ⟨_, follows_openOn rfl, follows_openOn rfl⟩, follows_readOn⟩,
    follows_openOn rfl⟩, follows_readOn⟩, follows_readOn⟩

theorem readsTogether_disciplined :
    ∃ last : Pool (Descriptors Entry) Request HostCall HostCall.Answer ThreadLocal Int,
      Pool.Reaches Invoked tableStep ⟨logOnly, []⟩ readsTogether last ∧
        (∀ thread ∈ last.threads, thread.Finished) ∧ last.world = logOnly := by
  let reader : Thread Request HostCall HostCall.Answer ThreadLocal Int :=
    ⟨.read (ascii "/a") 32 8 0 plainFile, startThread,
      nosqlFSOper (.read (ascii "/a") 32 8 0 plainFile)⟩
  obtain ⟨table, follows⟩ := follows_readsTogether
  have own : ∀ i < 3, ∃ fd ∈ [4, 5], eventsOf i readsTogether = openOn fd ++ readOn fd := by
    intro i bound
    unfold readsTogether
    simp only [eventsOf_append]
    match i, bound with
    | 0, _ => exact ⟨4, by decide, by simp [eventsOf_map_self, eventsOf_map_ne]⟩
    | 1, _ => exact ⟨5, by decide, by simp [eventsOf_map_self, eventsOf_map_ne]⟩
    | 2, _ => exact ⟨4, by decide, by simp [eventsOf_map_self, eventsOf_map_ne]⟩
  have served : ∃ last, Pool.Reaches Invoked tableStep ⟨logOnly, [reader, reader, reader]⟩
      readsTogether last ∧ last.world = table ∧ ∀ thread ∈ last.threads, thread.Finished := by
    refine Pool.Reaches.of_runs (fun entry member => ?_) (fun i thread live => ?_) follows
    · simp only [readsTogether, List.mem_append, List.mem_map, or_assoc] at member
      rcases member with ⟨_, _, rfl⟩ | ⟨_, _, rfl⟩ | ⟨_, _, rfl⟩ | ⟨_, _, rfl⟩ | ⟨_, _, rfl⟩ |
        ⟨_, _, rfl⟩ <;> simp
    · have bound : i < 3 := (List.getElem?_eq_some_iff.mp live).1
      obtain ⟨fd, member, same⟩ := own i bound
      have alike : thread = reader := by
        match i, bound with
        | 0, _ | 1, _ | 2, _ => exact (Option.some.inj live).symm
      rw [same, alike]
      exact exec_readOn fd member
  obtain ⟨last, served, _, finished⟩ := served
  have begun : Pool.Reaches Invoked tableStep ⟨logOnly, []⟩ []
      (⟨logOnly, [reader, reader, reader]⟩ : Pool (Descriptors Entry) Request HostCall
        HostCall.Answer ThreadLocal Int) :=
    .start (.start (.start (.refl _) (.start reader rfl)) (.start reader rfl)) (.start reader rfl)
  have reaches := begun.append served
  have unopened : ∀ fd entry, logOnly fd = some entry → entry.owner = none := by
    intro fd entry found
    unfold logOnly at found
    split at found
    · cases found
      rfl
    · cases found
  exact ⟨last, reaches, finished, (descriptors_disciplined unopened reaches).2 finished⟩

end NosqlFS
