import NosqlFS.Names.Namespace
import NosqlFS.Runs.Calls

/-!
# Confinement to the root directory

The host's files are a space of paths.  Confinement to a root says that handlers hand
out paths below the root only, that two hosts which agree below the root answer alike,
and that nothing outside the root changes.
-/

namespace NosqlFS

open Interaction Text Paths

variable {ν π : Type}

/-! ## Hosts -/

/-- The files of a host by their components, and the state of the process: its
descriptors, its log and everything else that is not a file. -/
structure HostState (ν π : Type) where
  files : Space Bytes ν
  process : π

/-- A host that answers calls.  The calls of the log belong to the process: they go through a
stream that was opened before the first request. -/
structure Host (ν π : Type) where
  machine : Machine (HostState ν π) HostCall HostCall.Answer
  logging : π → (c : HostCall) → Option (c.Answer × π)
  logs : ∀ w c, c.isLog = true → machine w c =
    (logging w.process c).map fun reached => (reached.1, { w with process := reached.2 })

def HostState.AgreeBelow (root : List Bytes) (first second : HostState ν π) : Prop :=
  first.process = second.process ∧ Space.AgreeBelow root first.files second.files

/-- A call of the log leaves the files alone and goes the same way over other files. -/
theorem Host.logs_answers {host : Host ν π} {w w' : HostState ν π} {event : HostEvent}
    (logged : event.call.isLog = true) (answers : host.machine.Answers w event w') :
    w'.files = w.files ∧ ∀ files, host.machine.Answers { w with files := files } event
      { w' with files := files } := by
  have reached := answers
  rw [Machine.Answers, host.logs _ _ logged, Option.map_eq_some_iff] at reached
  obtain ⟨⟨answer, process⟩, found, same⟩ := reached
  cases same
  refine ⟨rfl, fun files => ?_⟩
  rw [Machine.Answers, host.logs _ _ logged]
  exact Option.map_eq_some_iff.mpr ⟨_, found, rfl⟩

theorem Host.logs_follows {host : Host ν π} {w w' : HostState ν π} {t : HostTrace}
    (logged : ∀ event ∈ t, event.call.isLog = true) (follows : Follows host.machine.Answers w t w') :
    w'.files = w.files ∧ ∀ files, Follows host.machine.Answers { w with files := files } t
      { w' with files := files } := by
  induction follows with
  | nil w => exact ⟨rfl, fun files => .nil _⟩
  | cons first rest ih =>
      obtain ⟨kept, again⟩ := host.logs_answers (logged _ List.mem_cons_self) first
      obtain ⟨keptRest, againRest⟩ := ih fun event member => logged event (List.mem_cons_of_mem _ member)
      exact ⟨keptRest.trans kept, fun files => .cons (again files) (againRest files)⟩

/-! ## Confinement -/

/-- The argument that the usage message calls `rootDir`: the last but one. -/
def rootDirArgument (argv : List Bytes) : Bytes := argv.getD (argv.length - 2) []

/-- The thread that serves a request has the private data that `main` made. -/
def ThreadLocal.privateData (s : ThreadLocal) : Pointer NosqlFSState := s.context.target.privateData

/-- Requests are confined to a root: whatever path a handler hands out is the request's
own path below the root; two hosts that agree below the root give the same answers and
agree afterwards; nothing outside the root changes. -/
structure Confined (host : Host ν π) (root : List Bytes) (data : Pointer NosqlFSState)
    (requests : List Request) : Prop where
  paths : ∀ request ∈ requests, ∀ s t s' reply, s.privateData = data →
    Exec s (nosqlFSOper request) t s' reply → ∀ event ∈ t, event.call.paths = [] ∨
      event.call.paths.map components = request.paths.map fun path => root ++ components path
  answers : ∀ s t s' w w' other, s.privateData = data → Exec s (serve requests) t s' () →
    Follows host.machine.Answers w t w' → w.AgreeBelow root other →
      ∃ other', Follows host.machine.Answers other t other' ∧ w'.AgreeBelow root other'
  frame : ∀ s t s' w w', s.privateData = data → Exec s (serve requests) t s' () →
    Follows host.machine.Answers w t w' → Space.AgreeOutside root w'.files w.files

/-! ## What handlers hand out -/

/-- Every handler that takes paths hands all of them out, as they are. -/
theorem makes_paths {request : Request} (takes : request.paths ≠ []) :
    Makes (fun c => c.paths = request.paths) (nosqlFSOper request) := by
  cases request with
  | release => exact absurd rfl takes
  | access => exact Makes.andThen_left (.inl rfl)
  | read => exact Makes.andThen_left (.inl rfl)
  | mknod path mode rdev =>
      refine Makes.andThen_right fun _ => Makes.andThen_left ?_
      unfold mknodBranches
      split
      · exact Makes.andThen_left (.inl rfl)
      · split <;> exact Makes.andThen_left (.inl rfl)
  | _ => exact Makes.andThen_right fun _ => Makes.andThen_left (.inl rfl)

/-- Paths that are handed out as they are lie below a root only if the root is empty. -/
theorem root_eq_nil {root : List Bytes} {paths : List Bytes} (takes : paths ≠ [])
    (below : paths.map components = paths.map fun path => root ++ components path) : root = [] := by
  cases paths with
  | nil => exact absurd rfl takes
  | cons path rest =>
      have first : components path = root ++ components path := (List.cons.inj below).1
      have lengths := congrArg List.length first
      rw [List.length_append] at lengths
      exact List.length_eq_zero_iff.mp (by omega)

/-- Every request has a run from every register. -/
theorem exists_run (request : Request) (s : ThreadLocal) :
    ∃ t s' reply, Exec s (nosqlFSOper request) t s' reply :=
  (@built_nosqlFSOper (fun _ => True) _ (fun _ _ => trivial) request fun _ serves => serves).exists_run s

/-! ## The root directory -/

/-- `realpath` makes its one call and passes the answer on. -/
theorem exec_realpath {path : Bytes} {s s' : ThreadLocal} {t : HostTrace} {resolved : Option Bytes}
    (run : Exec s (realpath path) t s' resolved) :
    ∃ answer : Except Errno Bytes, t = [⟨.realpath path, answer⟩] ∧ resolved = answer.toOption := by
  obtain ⟨answer, u, rfl, rest⟩ := exec_call_iff.mp run
  cases answer with
  | ok value =>
      obtain ⟨rfl, _, rfl⟩ := exec_done_iff.mp rest
      exact ⟨.ok value, rfl, rfl⟩
  | error e =>
      obtain ⟨_, _, _, _, rfl, stored, returned⟩ := exec_andThen_iff.mp rest
      obtain ⟨rfl, _⟩ := exec_setErrno_iff.mp stored
      obtain ⟨rfl, _, rfl⟩ := exec_done_iff.mp returned
      exact ⟨.error e, rfl, rfl⟩

/-- `main` gets to `fuse_main` with three arguments or more.  The root directory it has
stored then is the canonical path of the last one, the mount point. -/
theorem main_stores {argv : List Bytes} {s s' : ThreadLocal} {t : HostTrace}
    {arguments : FuseMainArguments} (run : Exec s (main argv) t s' (some arguments)) :
    3 ≤ argv.length ∧ ∃ answer : Except Errno Bytes,
      (⟨.realpath (argv.getLastD []), answer⟩ : HostEvent) ∈ t ∧
      arguments.privateData.target.rootdir = answer.toOption := by
  obtain ⟨allocated, u, rfl, rest⟩ := exec_call_iff.mp run
  rw [Program.done_andThen] at rest
  cases allocated with
  | none =>
      obtain ⟨_, _, impossible⟩ := exec_done_iff.mp rest
      cases impossible
  | some address =>
      by_cases few : argv.length < 3
      · simp only [few, if_true] at rest
        obtain ⟨_, _, impossible⟩ := exec_done_iff.mp rest
        cases impossible
      · simp only [few, if_false] at rest
        obtain ⟨_, _, _, resolved, rfl, asked, opening⟩ := exec_andThen_iff.mp rest
        obtain ⟨answer, rfl, rfl⟩ := exec_realpath asked
        obtain ⟨_, _, _, opened, rfl, _, returned⟩ := exec_andThen_iff.mp opening
        refine ⟨by omega, answer, by simp, ?_⟩
        cases opened with
        | none =>
            obtain ⟨_, _, impossible⟩ := exec_done_iff.mp returned
            cases impossible
        | some logFile =>
            obtain ⟨_, _, same⟩ := exec_done_iff.mp returned
            cases same
            rfl

/-- The request's paths are all that a handler hands out. -/
theorem handed_paths {request : Request} {s s' : ThreadLocal} {t : HostTrace} {reply : Int}
    (run : Exec s (nosqlFSOper request) t s' reply) :
    ∀ event ∈ t, event.call.paths = [] ∨ event.call.paths = request.paths := by
  refine run.all (all_nosqlFSOper (fun c logged => .inl ?_) fun c serves => serves.paths_eq)
  cases c <;> first
    | rfl
    | cases logged

/-- A request without paths only writes the log. -/
theorem isLog_of_pathless {requests : List Request}
    (pathless : ∀ request ∈ requests, request.paths = []) {s s' : ThreadLocal} {t : HostTrace}
    {nothing : Unit} (run : Exec s (serve requests) t s' nothing) :
    ∀ event ∈ t, event.call.isLog = true := by
  have built : Built (fun _ => True) (fun _ => False) (serve requests) := by
    refine built_serve (fun _ _ => trivial) fun request member c serves => ?_
    have none := pathless request member
    cases serves <;> cases none
  exact run.all (built.all (fun c logs => logs.isLog) fun c impossible => impossible.elim)

/-- Requests are confined to a root exactly when it is the host's own or no request
takes a path. -/
theorem confined_iff (host : Host ν π) (root : List Bytes) (data : Pointer NosqlFSState)
    (requests : List Request) :
    Confined host root data requests ↔
      root = [] ∨ ∀ request ∈ requests, request.paths = [] := by
  constructor
  · intro confined
    by_contra escapes
    obtain ⟨somewhere, taking⟩ := not_or.mp escapes
    push Not at taking
    obtain ⟨request, member, takes⟩ := taking
    let thread : ThreadLocal := ⟨0, ⟨0, ⟨0, 0, 0, 0, data⟩⟩⟩
    obtain ⟨u, after, reply, run⟩ := exists_run request thread
    obtain ⟨event, inside, handed⟩ := run.makes (makes_paths takes)
    obtain none | below := confined.paths request member thread u after reply rfl run event inside
    · exact takes (handed.symm.trans none)
    · rw [handed] at below
      exact somewhere (root_eq_nil takes below)
  · rintro (rfl | pathless)
    · refine ⟨fun request _ s t s' reply _ run event member => ?_, ?_, ?_⟩
      · refine (handed_paths run event member).imp_right fun same => ?_
        rw [same]
        rfl
      · rintro s t s' w w' ⟨files, process⟩ _ _ follows ⟨rfl, agree⟩
        obtain rfl := Space.agreeBelow_nil_iff.mp agree
        exact ⟨w', follows, rfl, fun _ _ => rfl⟩
      · exact fun _ _ _ _ _ _ _ _ => Space.agreeOutside_nil _ _
    · refine ⟨fun request member s t s' reply _ run event inside => ?_, ?_, ?_⟩
      · have same := handed_paths run event inside
        rw [pathless request member, or_self] at same
        exact .inl same
      · rintro s t s' w w' ⟨files, process⟩ _ run follows ⟨rfl, agree⟩
        obtain ⟨kept, again⟩ := host.logs_follows (isLog_of_pathless pathless run) follows
        exact ⟨_, again files, rfl, by rwa [kept]⟩
      · intro s t s' w w' _ run follows path _
        rw [(host.logs_follows (isLog_of_pathless pathless run) follows).1]

/-- For every invocation that gets to `fuse_main`, the stored root directory is that of
the mount point, and requests are confined to the root directory argument exactly when
it is the host's root or no request takes a path. -/
theorem rootDir_confined_iff (host : Host ν π) (canonical : Bytes → Bytes) {argv : List Bytes}
    {s s' : ThreadLocal} {t : HostTrace} {arguments : FuseMainArguments}
    (mounted : Exec s (main argv) t s' (some arguments)) (requests : List Request) :
    (∃ answer : Except Errno Bytes, (⟨.realpath (argv.getLastD []), answer⟩ : HostEvent) ∈ t ∧
      arguments.privateData.target.rootdir = answer.toOption) ∧
    (Confined host (components (canonical (rootDirArgument argv))) arguments.privateData requests ↔
      components (canonical (rootDirArgument argv)) = [] ∨
        ∀ request ∈ requests, request.paths = []) :=
  ⟨(main_stores mounted).2, confined_iff host _ _ requests⟩

/-! ## A host with one file outside the root -/

/-- The answers of the calls that make up a message. -/
def quietLogging : Unit → (c : HostCall) → Option (c.Answer × Unit)
  | (), .time => some (0, ())
  | (), .localtime _ => some (newYear, ())
  | (), .strftime _ => some ((), ())
  | (), .fputs _ => some ((), ())
  | (), .vfprintf .. => some (.keep, ())
  | (), .strerror _ => some ([], ())
  | (), _ => none

/-- A host that knows no other call than `unlink`. -/
def removingHost : Host Unit Unit where
  machine := fun w c => match c with
    | .unlink path =>
        if w.files (components path) = none then some (.error .enoent, w)
        else some (.ok (), { w with files := w.files.erase (components path) })
    | c => (quietLogging w.process c).map fun reached => (reached.1, { w with process := reached.2 })
  logging := quietLogging
  logs := by
    intro w c logged
    cases c <;> first
      | rfl
      | cases logged

def mountArgv : List Bytes := [ascii "nosqlFS", ascii "/home", ascii "/mnt"]

/-- What `main` passes on for `mountArgv`. -/
def mountArguments : FuseMainArguments :=
  ⟨[ascii "nosqlFS", ascii "/mnt"], ⟨8, ⟨3, some (ascii "/mnt")⟩⟩⟩

def mountTrace : HostTrace :=
  [⟨.malloc 16, some 8⟩, ⟨.realpath (ascii "/mnt"), .ok (ascii "/mnt")⟩, ⟨.time, 0⟩,
    ⟨.gmtime 0, newYear⟩, ⟨.fopen (logName newYear) "a", .ok 3⟩]

theorem exec_mount : Exec startThread (main mountArgv) mountTrace startThread (some mountArguments) := by
  have replayed : run recording 0 (main mountArgv) startThread mountTrace =
      some (some mountArguments, startThread, []) := by rfl
  exact exec_of_recording replayed

/-- The whole host is mounted. -/
def wholeArgv : List Bytes := [ascii "nosqlFS", ascii "/", ascii "/mnt"]

theorem exec_wholeMount :
    Exec startThread (main wholeArgv) mountTrace startThread (some mountArguments) := by
  have replayed : run recording 0 (main wholeArgv) startThread mountTrace =
      some (some mountArguments, startThread, []) := by rfl
  exact exec_of_recording replayed

theorem wholeMount_confined :
    (∃ answer : Except Errno Bytes, (⟨.realpath (ascii "/mnt"), answer⟩ : HostEvent) ∈ mountTrace ∧
      some (ascii "/mnt") = answer.toOption) ∧
    Confined removingHost (components (rootDirArgument mountArgv)) mountArguments.privateData
      [.release (ascii "/etc") plainFile] ∧
    Confined removingHost (components (rootDirArgument wholeArgv)) mountArguments.privateData
      [.unlink (ascii "/etc"), .rename (ascii "/a") (ascii "/b") 0] := by
  obtain ⟨stored, released⟩ :=
    rootDir_confined_iff removingHost id exec_mount [.release (ascii "/etc") plainFile]
  have whole := (rootDir_confined_iff removingHost id exec_wholeMount
    [.unlink (ascii "/etc"), .rename (ascii "/a") (ascii "/b") 0]).2
  exact ⟨stored, released.mpr (.inr (by simp [Request.paths])), whole.mpr (.inl (by decide))⟩

/-- Messages that nothing disturbs pass by the files. -/
theorem follows_quietly (w : HostState Unit Unit) (stream : Nat)
    (calls : List (String × List Arg)) :
    Follows removingHost.machine.Answers w (quietly stream calls) w := by
  induction calls with
  | nil => exact .nil w
  | cons call calls ih =>
      exact .cons rfl (.cons rfl (.cons rfl (.cons rfl (.cons rfl ih))))

/-- A host whose only file is `/etc`. -/
def onlyEtc : HostState Unit Unit := ⟨Space.insert (fun _ => none) [ascii "etc"] (), ()⟩

def noFiles : HostState Unit Unit := ⟨fun _ => none, ()⟩

/-- The thread that serves after `mountArgv`. -/
def mountedThread : ThreadLocal := ⟨0, ⟨0, ⟨0, 0, 0, 0, mountArguments.privateData⟩⟩⟩

def etcTrace : HostTrace := unlinkTrace 3 (ascii "/etc")

theorem follows_etc : Follows removingHost.machine.Answers onlyEtc etcTrace noFiles := by
  have removed : removingHost.machine.Answers onlyEtc ⟨.unlink (ascii "/etc"), .ok ()⟩ noFiles := by
    have there : components (ascii "/etc") = [ascii "etc"] := by decide
    have erased : onlyEtc.files.erase [ascii "etc"] = noFiles.files := Space.erase_insert _ rfl
    simp only [Machine.Answers, removingHost, there, erased]
    rfl
  refine follows_append_iff.mpr ⟨onlyEtc, follows_quietly .., .cons removed ?_⟩
  exact follows_quietly ..

/-- Where `/etc` is missing, its removal does not succeed. -/
theorem not_follows_etc (w : HostState Unit Unit) :
    ¬ Follows removingHost.machine.Answers noFiles etcTrace w := by
  intro follows
  obtain ⟨middle, messages, rest⟩ := follows_append_iff.mp follows
  have kept : middle.files = noFiles.files := by
    refine (removingHost.logs_follows (fun event member => ?_) messages).1
    have logged : ∀ event ∈ quietly 3 [("nosqlFS_unlink(path = \"%s\")\n", [.str (ascii "/etc")])],
        event.call.isLog = true := by decide
    exact logged event member
  obtain ⟨_, removed, _⟩ := follows_cons_iff.mp rest
  have missing : middle.files (components (ascii "/etc")) = none := by rw [kept]; rfl
  simp only [Machine.Answers, removingHost, missing, if_true] at removed
  cases removed

/-- With `/home` for its root directory and `/mnt` for its mount point, the program removes
`/etc`, and tells hosts apart that agree below `/home`. -/
theorem etc_not_confined :
    components (rootDirArgument mountArgv) = [ascii "home"] ∧
    Exec startThread (main mountArgv) mountTrace startThread (some mountArguments) ∧
    Exec mountedThread (serve [.unlink (ascii "/etc")]) etcTrace mountedThread () ∧
    (∃ event ∈ etcTrace, event.call.paths = [ascii "/etc"]) ∧
    Follows removingHost.machine.Answers onlyEtc etcTrace noFiles ∧
    ¬ Space.AgreeOutside [ascii "home"] noFiles.files onlyEtc.files ∧
    onlyEtc.AgreeBelow [ascii "home"] noFiles ∧
    (∀ w, ¬ Follows removingHost.machine.Answers noFiles etcTrace w) ∧
    ¬ Confined removingHost [ascii "home"] mountArguments.privateData
      [.unlink (ascii "/etc")] := by
  have serves : Exec mountedThread (serve [.unlink (ascii "/etc")]) etcTrace mountedThread () :=
    exec_unlinks mountedThread [ascii "/etc"]
  have changed : ¬ Space.AgreeOutside [ascii "home"] noFiles.files onlyEtc.files := by
    intro agree
    have same := agree [ascii "etc"] (by decide)
    exact absurd same (by decide)
  refine ⟨by decide, exec_mount, serves, ⟨⟨.unlink (ascii "/etc"), .ok ()⟩, ?_, rfl⟩, follows_etc,
    changed, ⟨rfl, fun path below => ?_⟩, not_follows_etc, fun confined => ?_⟩
  · exact List.mem_append_right _ List.mem_cons_self
  · have other : path ≠ [ascii "etc"] := by
      rintro rfl
      exact absurd below (by decide)
    exact @Space.insert_of_ne _ _ _ noFiles.files _ () path other
  · exact changed (confined.frame _ _ _ _ _ rfl serves follows_etc)

end NosqlFS
