import NosqlFS.Runs.Logging

/-!
# Which calls a request can lead to

For every request, the host calls that its handler can make besides logging, whatever
the answers are.  Statements about paths and descriptors start from this table.
-/

namespace NosqlFS

open Interaction Text

/-! ## Paths -/

/-- The paths a request asks the host about.  The target text of a symbolic link is not
one of them. -/
def Request.paths : Request → List Bytes
  | .getattr path _ => [path]
  | .access path _ => [path]
  | .readlink path _ _ => [path]
  | .readdir path _ _ _ _ _ => [path]
  | .mknod path _ _ => [path]
  | .mkdir path _ => [path]
  | .symlink _ to_ => [to_]
  | .unlink path => [path]
  | .rmdir path => [path]
  | .rename from_ to_ _ => [from_, to_]
  | .link from_ to_ => [from_, to_]
  | .chmod path _ => [path]
  | .chown path _ _ => [path]
  | .truncate path _ => [path]
  | .openFile path _ => [path]
  | .read path _ _ _ _ => [path]
  | .write path _ _ _ _ => [path]
  | .statfs path _ => [path]
  | .release _ _ => []

/-- The path arguments of a host call. -/
def HostCall.paths : HostCall → List Bytes
  | .lstat path _ => [path]
  | .access path _ => [path]
  | .opendir path => [path]
  | .readlink path _ _ => [path]
  | .openPath path _ _ => [path]
  | .mkfifo path _ => [path]
  | .mknod path _ _ => [path]
  | .mkdir path _ => [path]
  | .unlink path => [path]
  | .rmdir path => [path]
  | .symlink _ path => [path]
  | .rename from_ to_ => [from_, to_]
  | .link from_ to_ => [from_, to_]
  | .chmod path _ => [path]
  | .lchown path _ _ => [path]
  | .truncate path _ => [path]
  | .statvfs path _ => [path]
  | .realpath path => [path]
  | .fopen path _ => [path]
  | _ => []

/-- The format of a message. -/
def HostCall.format : HostCall → Option String
  | .vfprintf _ format _ => some format
  | _ => none

/-! ## Calls -/

/-- The calls other than those of the log that serve a request. -/
inductive Request.Serves : Request → HostCall → Prop where
  | getattr {path stbuf} : Serves (.getattr path stbuf) (.lstat path stbuf)
  | access {path mask} : Serves (.access path mask) (.access path mask)
  | readlink {path link size} :
      Serves (.readlink path link size) (.readlink path link ((size + (2 ^ 64 - 1)) % 2 ^ 64))
  | store {path link size address} : Serves (.readlink path link size) (.store address 0)
  | opendir {path buf fill offset fi flags} :
      Serves (.readdir path buf fill offset fi flags) (.opendir path)
  | readdir {path buf fill offset fi flags dp} :
      Serves (.readdir path buf fill offset fi flags) (.readdir dp)
  | filler {path buf fill offset fi flags} {de : Dirent} :
      Serves (.readdir path buf fill offset fi flags) (.filler buf de.dName (direntStat de) 0 0)
  | closedir {path buf fill offset fi flags dp} :
      Serves (.readdir path buf fill offset fi flags) (.closedir dp)
  | creat {path mode rdev} :
      Serves (.mknod path mode rdev) (.openPath path (oCreat ||| oExcl ||| oWronly) mode)
  | closeCreated {path mode rdev fd} : Serves (.mknod path mode rdev) (.close fd)
  | mkfifo {path mode rdev} : Serves (.mknod path mode rdev) (.mkfifo path mode)
  | mknod {path mode rdev} : Serves (.mknod path mode rdev) (.mknod path mode rdev)
  | mkdir {path mode} : Serves (.mkdir path mode) (.mkdir path mode)
  | symlink {from_ to_} : Serves (.symlink from_ to_) (.symlink from_ to_)
  | unlink {path} : Serves (.unlink path) (.unlink path)
  | rmdir {path} : Serves (.rmdir path) (.rmdir path)
  | rename {from_ to_ flags} : Serves (.rename from_ to_ flags) (.rename from_ to_)
  | link {from_ to_} : Serves (.link from_ to_) (.link from_ to_)
  | chmod {path mode} : Serves (.chmod path mode) (.chmod path mode)
  | chown {path uid gid} : Serves (.chown path uid gid) (.lchown path uid gid)
  | truncate {path size} : Serves (.truncate path size) (.truncate path size)
  | openFile {path fi} : Serves (.openFile path fi) (.openPath path fi.target.flags 0)
  | closeOpened {path fi fd} : Serves (.openFile path fi) (.close fd)
  | reopenRead {path buf size offset fi} :
      Serves (.read path buf size offset fi) (.openPath path oRdonly 0)
  | pread {path buf size offset fi fd} :
      Serves (.read path buf size offset fi) (.pread fd buf size offset)
  | closeRead {path buf size offset fi fd} : Serves (.read path buf size offset fi) (.close fd)
  | reopenWrite {path buf size offset fi} :
      Serves (.write path buf size offset fi) (.openPath path oWronly 0)
  | pwrite {path buf size offset fi fd} :
      Serves (.write path buf size offset fi) (.pwrite fd buf size offset)
  | closeWrite {path buf size offset fi fd} : Serves (.write path buf size offset fi) (.close fd)
  | statfs {path stbuf} : Serves (.statfs path stbuf) (.statvfs path stbuf)

/-- The host is asked about no path but the request's own. -/
theorem Request.Serves.paths {request : Request} {c : HostCall} (serves : request.Serves c) :
    ∀ path ∈ c.paths, path ∈ request.paths := by
  cases serves <;> first
    | exact fun path member => member
    | exact fun path member => absurd member List.not_mem_nil

/-- A call that has path arguments has all of the request's, as they are. -/
theorem Request.Serves.paths_eq {request : Request} {c : HostCall} (serves : request.Serves c) :
    c.paths = [] ∨ c.paths = request.paths := by
  cases serves <;> first | exact .inr rfl | exact .inl rfl

/-- No request is served by a call of the log. -/
theorem Request.Serves.not_isLog {request : Request} {c : HostCall} (serves : request.Serves c) :
    c.isLog = false := by
  cases serves <;> rfl

/-! ## How handlers are built -/

/-- A program made of log messages in known formats, of permitted host calls and of loops
that can stop after any number of passes. -/
inductive Built (speaks : String → Prop) (own : HostCall → Prop) : {α : Type} → Handler α → Prop where
  | done {α : Type} (value : α) : Built speaks own (.done value : Handler α)
  | sequence {α β : Type} {first : Handler α} {rest : α → Handler β}
      (head : Built speaks own first) (tail : ∀ value, Built speaks own (rest value)) :
      Built speaks own (first.andThen rest)
  | read {α : Type} {next : ThreadLocal → Handler α} (rest : ∀ s, Built speaks own (next s)) :
      Built speaks own (.read next)
  | write {α : Type} {stored : ThreadLocal} {next : Handler α} (rest : Built speaks own next) :
      Built speaks own (.write stored next)
  | message {format : String} {args : List Arg} (known : speaks format) :
      Built speaks own (logMsg format args)
  | strerror {errnum : Int} : Built speaks own (strerror errnum)
  | host {α : Type} {c : HostCall} {next : c.Answer → Handler α} (permitted : own c)
      (rest : ∀ answer, Built speaks own (next answer)) : Built speaks own (.call c next)
  | loop {α : Type} {body : Handler Bool} {next : Handler α}
      (stops : ∀ s, ∃ t s', Exec s body t s' false) (inner : Built speaks own body)
      (rest : Built speaks own next) : Built speaks own (.loop body next)

section Built

variable {speaks : String → Prop} {own condition : HostCall → Prop}

/-- A call of the log, if it writes a message then in a known format. -/
structure HostCall.Logs (speaks : String → Prop) (c : HostCall) : Prop where
  isLog : c.isLog = true
  known : ∀ format, c.format = some format → speaks format

theorem HostCall.logs_of_none {c : HostCall} (logged : c.isLog = true)
    (silent : c.format = none) : c.Logs speaks :=
  ⟨logged, fun format found => by rw [silent] at found; cases found⟩

theorem all_logMsg {format : String} (known : speaks format)
    (logging : ∀ c : HostCall, c.Logs speaks → condition c) {args : List Arg} :
    All condition (logMsg format args) := by
  have silent : ∀ c : HostCall, c.isLog = true → c.format = none → condition c :=
    fun c logged none => logging c (HostCall.logs_of_none logged none)
  refine ⟨silent _ rfl rfl, fun timep => ⟨silent _ rfl rfl, fun tm => ⟨silent _ rfl rfl, fun _ => ?_⟩⟩⟩
  intro s
  refine ⟨silent _ rfl rfl, fun _ s => ⟨logging _ ⟨rfl, fun _ found => ?_⟩, fun effect s => ?_⟩⟩
  · cases found
    exact known
  · trivial

/-- The calls of a built program are the log's or permitted. -/
theorem Built.all {α : Type} {program : Handler α} (built : Built speaks own program)
    (logging : ∀ c : HostCall, c.Logs speaks → condition c)
    (permitted : ∀ c, own c → condition c) : All condition program := by
  induction built with
  | done value => trivial
  | sequence _ _ ihHead ihTail => exact ihHead.andThen ihTail
  | read _ ih => exact ih
  | write _ ih => exact ih
  | message known => exact all_logMsg known logging
  | strerror => exact ⟨logging _ (HostCall.logs_of_none rfl rfl), fun _ => trivial⟩
  | host allowed _ ih => exact ⟨permitted _ allowed, ih⟩
  | loop _ _ _ ihInner ih => exact ⟨ihInner, ih⟩

instance (c : HostCall) : Nonempty c.Answer := by
  cases c <;> first
    | exact ⟨.error .enoent⟩
    | exact ⟨()⟩
    | exact ⟨(0 : Int)⟩
    | exact ⟨newYear⟩
    | exact ⟨[]⟩
    | exact ⟨none⟩
    | exact ⟨.keep⟩
    | exact ⟨.finish⟩
    | exact ⟨⟨0, .keep⟩⟩

/-- A built program has a complete run from every register. -/
theorem Built.exists_run {α : Type} {program : Handler α} (built : Built speaks own program)
    (s : ThreadLocal) : ∃ t s' value, Exec s program t s' value := by
  induction built generalizing s with
  | done value => exact ⟨_, _, _, .done _ _⟩
  | sequence _ _ ihHead ihTail =>
      obtain ⟨t, middle, result, first⟩ := ihHead s
      obtain ⟨u, s', value, second⟩ := ihTail result middle
      exact ⟨_, s', value, exec_andThen_iff.mpr ⟨_, _, _, _, rfl, first, second⟩⟩
  | read _ ih =>
      obtain ⟨t, s', value, rest⟩ := ih s s
      exact ⟨t, s', value, .read rest⟩
  | write _ ih =>
      obtain ⟨t, s', value, rest⟩ := ih _
      exact ⟨t, s', value, .write rest⟩
  | message _ => exact ⟨_, _, (), exec_logMsg_iff.mpr ⟨quietStep, rfl, rfl⟩⟩
  | strerror => exact ⟨_, _, [], .call _ (.done _ _)⟩
  | @host _ c _ _ _ ih =>
      obtain ⟨answer⟩ : Nonempty c.Answer := inferInstance
      obtain ⟨t, s', value, rest⟩ := ih answer s
      exact ⟨_, s', value, .call answer rest⟩
  | loop stops _ _ _ ih =>
      obtain ⟨t, middle, pass⟩ := stops s
      obtain ⟨u, s', value, rest⟩ := ih middle
      exact ⟨_, s', value, .stop pass rest⟩

theorem built_setErrno {value : Int} : Built speaks own (setErrno value) :=
  .read fun _ => .write (.done ())

theorem built_getErrno : Built speaks own getErrno := .read fun _ => .done _

theorem built_negatedErrno : Built speaks own (getErrno.andThen fun errno => .done (-errno)) :=
  .sequence built_getErrno fun _ => .done _

theorem built_fromHost {α : Type} {value : α → Int} {answer : Except Errno α} :
    Built speaks own (fromHost value answer) := by
  cases answer with
  | ok got => exact .done _
  | error e => exact .sequence built_setErrno fun _ => .done _

theorem built_hostCall {α : Type} {c : HostCall} {next : c.Answer → Handler Int}
    {value : α → Int} {outcome : c.Answer → Except Errno α}
    (follows : ∀ answer, next answer = fromHost value (outcome answer)) (permitted : own c) :
    Built speaks own (.call c next) := by
  refine .host permitted fun answer => ?_
  rw [follows]
  exact built_fromHost

/-! ## The log -/

/-- Every format that a handler logs. -/
def logFormats : List String :=
  [retstatFormat, errorFormat] ++ fiFormats ++
  ["nosqlFS_getattr(char * path = %s, struct stat * stbuf = %08x)\n",
    "nosqlFS_opendir(path = \"%s\", fuse_file_info = 0x%08x)\n",
    "nosqlFS_readdir(path = \"%s\", buf = 0x%08x, fuse_fill_dir_t = 0x%08x, offset = %lld, fi = 0x%08x)\n",
    "calling filler with name %s\n",
    "nosqlFS_readlink(path = \"%s\", link = \"S\", size = %d)\n",
    "nosqlFS_mknod(path = \"%s\", mode = 0%3o, dev = %lld)\n",
    "nosqlFS_mkdir(path = \"%s\", mode = 0%3o)\n",
    "nosqlFS_unlink(path = \"%s\")\n",
    "nosqlFS_rmdir(path = \"%s\")\n",
    "nosqlFS_symlink(from = \"%s\", to = \"%s\")\n",
    "nosqlFS_rename(from = \"%s\", to = \"%s\", flags = %u)\n",
    "nosqlFS_link(from = \"%s\", to = \"%s\")\n",
    "nosqlFS_chmod(path = \"%s\", mode = 0%3o)\n",
    "nosqlFS_chown(path = \"%s\", uid = %d, gid = %d)\n",
    "nosqlFS_truncate(path = \"%s\", size = %lld)\n",
    "nosqlFS_open(path = \"%s\", fuse_file_info = 0x%08x)\n",
    "nosqlFS_read(path = \"%s\", buf = 0x%08x, size = %d, offset = %lld, fuse_file_info = 0x%08x)\n",
    "nosqlFS_write(path = \"%s\", buf = 0x%08x, size = %d, offset = %lld, fuse_file_info = 0x%08x)\n",
    "nosqlFS_statfs(path = \"%s\", statvfs = 0x%08x)\n",
    "nosqlFS_release(path = \"%s\", fuse_file_info = 0x%08x)\n"]

section Log

variable (speaking : ∀ format ∈ logFormats, speaks format)

include speaking

theorem built_logError {func : String} : Built speaks own (logError func) := by
  have known : speaks "ERROR %s : %s\n" := speaking _ (by simp [logFormats, errorFormat])
  refine .sequence built_getErrno fun errnum => .sequence .strerror fun text => ?_
  exact .sequence (.message known) fun _ => built_negatedErrno

theorem built_logSyscall {func : String} {retstat minRet : Int} :
    Built speaks own (logSyscall func retstat minRet) := by
  have known : speaks "%s returned %d\n" := speaking _ (by simp [logFormats, retstatFormat])
  have logged : Built speaks own (logRetstat func retstat) :=
    .sequence built_getErrno fun errsave => .sequence (.message known) fun _ => built_setErrno
  refine .sequence logged fun _ => ?_
  split
  · exact .sequence (built_logError speaking) fun _ => built_negatedErrno
  · exact .done _

theorem built_logFi {fi : Pointer FuseFileInfo} : Built speaks own (logFi fi) := by
  have known : ∀ format ∈ fiFormats, speaks format := fun format member =>
    speaking format (by simp [logFormats, member])
  iterate 6 refine .sequence (.message (known _ (by simp [fiFormats]))) fun _ => ?_
  exact .message (known _ (by simp [fiFormats]))

theorem built_loggedCall {format : String} (known : format ∈ logFormats) {c : HostCall}
    {next : c.Answer → Handler Int} {α : Type} {value : α → Int}
    {outcome : c.Answer → Except Errno α}
    (follows : ∀ answer, next answer = fromHost value (outcome answer)) (permitted : own c)
    {func : String} {args : List Arg} :
    Built speaks own (loggedCall format args func (.call c next)) :=
  .sequence (.message (speaking _ known)) fun _ =>
    .sequence (built_hostCall follows permitted) fun _ => built_logSyscall speaking

/-! ## The handlers -/

theorem built_readdirPass {dp buf : Nat} (entries : own (.readdir dp))
    (offers : ∀ de : Dirent, own (.filler buf de.dName (direntStat de) 0 0)) :
    Built speaks own (readdirPass dp buf) := by
  refine .sequence (.host entries fun answer => ?_) ?_
  · cases answer with
    | entry de => exact .done _
    | finish => exact .done _
    | failed e => exact .sequence built_setErrno fun _ => .done _
  · rintro (_ | de)
    · exact .done _
    · refine .sequence (.message (speaking _ (by simp [logFormats]))) fun _ => ?_
      exact .sequence (.host (offers de) fun answer => .read fun s => .write (.done _))
        fun _ => .done _

theorem built_nosqlFSReaddir {path : Bytes} {buf fill : Nat} {offset : Int}
    {fi : Pointer FuseFileInfo} {flags : Nat}
    (serving : ∀ c, (Request.readdir path buf fill offset fi flags).Serves c → own c) :
    Built speaks own (nosqlFSReaddir path buf fill offset fi flags) := by
  refine .sequence (.message (speaking _ (by simp [logFormats]))) fun _ => ?_
  refine .sequence (.host (serving _ .opendir) fun answer => ?_) ?_
  · cases answer with
    | ok dp => exact .done _
    | error e => exact .sequence built_setErrno fun _ => .done _
  · rintro (_ | dp)
    · exact built_logError speaking
    · have stops : ∀ s, ∃ t s', Exec s (readdirPass dp buf) t s' false :=
        fun s => ⟨_, s, .call .finish (.done _ _)⟩
      refine .sequence (.message (speaking _ (by simp [logFormats]))) fun _ => .loop stops ?_ ?_
      · exact built_readdirPass speaking (serving _ .readdir) fun _ => serving _ .filler
      · exact .sequence (built_hostCall (fun _ => rfl) (serving _ .closedir)) fun _ => .done _

theorem built_mknodBranches {path : Bytes} {mode rdev : Nat}
    (serving : ∀ c, (Request.mknod path mode rdev).Serves c → own c) :
    Built speaks own (mknodBranches path mode rdev) := by
  have logged : ∀ func retstat, Built speaks own (logSyscall func retstat 0) :=
    fun _ _ => built_logSyscall speaking
  unfold mknodBranches
  split
  · refine .sequence (built_hostCall (fun _ => rfl) (serving _ .creat)) fun opened => ?_
    refine .sequence (logged _ _) fun retstat => ?_
    split
    · exact .sequence (built_hostCall (fun _ => rfl) (serving _ .closeCreated)) fun _ =>
        logged _ _
    · exact .done _
  · split
    · exact .sequence (built_hostCall (fun _ => rfl) (serving _ .mkfifo)) fun _ => logged _ _
    · exact .sequence (built_hostCall (fun _ => rfl) (serving _ .mknod)) fun _ => logged _ _

theorem built_nosqlFSOpen {path : Bytes} {fi : Pointer FuseFileInfo}
    (serving : ∀ c, (Request.openFile path fi).Serves c → own c) :
    Built speaks own (nosqlFSOpen path fi) := by
  refine .sequence (.message (speaking _ (by simp [logFormats]))) fun _ => ?_
  refine .sequence (built_hostCall (fun _ => rfl) (serving _ .openFile)) fun opened => ?_
  refine .sequence (built_logSyscall speaking) fun retstat => ?_
  refine .sequence (built_logFi speaking) fun _ => ?_
  split
  · exact built_negatedErrno
  · exact .sequence (built_hostCall (fun _ => rfl) (serving _ .closeOpened)) fun _ => .done _

theorem built_nosqlFSRead {path : Bytes} {buf size : Nat} {offset : Int}
    {fi : Pointer FuseFileInfo}
    (serving : ∀ c, (Request.read path buf size offset fi).Serves c → own c) :
    Built speaks own (nosqlFSRead path buf size offset fi) := by
  refine .sequence (built_hostCall (fun _ => rfl) (serving _ .reopenRead)) fun opened => ?_
  refine .sequence (built_logSyscall speaking) fun fd => ?_
  split
  · exact built_negatedErrno
  · refine .sequence (.message (speaking _ (by simp [logFormats]))) fun _ => ?_
    refine .sequence (built_hostCall (fun _ => rfl) (serving _ .pread)) fun copied => ?_
    refine .sequence (built_logSyscall speaking) fun retstat => ?_
    exact .sequence (built_hostCall (fun _ => rfl) (serving _ .closeRead)) fun _ => .done _

theorem built_nosqlFSWrite {path : Bytes} {buf : Pointer Bytes} {size : Nat} {offset : Int}
    {fi : Pointer FuseFileInfo}
    (serving : ∀ c, (Request.write path buf size offset fi).Serves c → own c) :
    Built speaks own (nosqlFSWrite path buf size offset fi) := by
  refine .sequence (.message (speaking _ (by simp [logFormats]))) fun _ => ?_
  refine .sequence (built_hostCall (fun _ => rfl) (serving _ .reopenWrite)) fun opened => ?_
  refine .sequence (built_logSyscall speaking) fun fd => ?_
  split
  · exact built_negatedErrno
  · refine .sequence (built_hostCall (fun _ => rfl) (serving _ .pwrite)) fun written => ?_
    refine .sequence (built_logSyscall speaking) fun retstat => ?_
    exact .sequence (built_hostCall (fun _ => rfl) (serving _ .closeWrite)) fun _ => .done _

theorem built_nosqlFSReadlink {path : Bytes} {link size : Nat}
    (serving : ∀ c, (Request.readlink path link size).Serves c → own c) :
    Built speaks own (nosqlFSReadlink path link size) := by
  refine .sequence (.message (speaking _ (by simp [logFormats]))) fun _ => ?_
  refine .sequence (built_hostCall (fun _ => rfl) (serving _ .readlink)) fun copied => ?_
  refine .sequence (built_logSyscall speaking) fun retstat => ?_
  split
  · exact .sequence (.host (serving _ .store) fun _ => .done _) fun _ => .done _
  · exact .done _

/-- A handler makes no calls but its messages and those of the table. -/
theorem built_nosqlFSOper {request : Request} (serving : ∀ c, request.Serves c → own c) :
    Built speaks own (nosqlFSOper request) := by
  have single : ∀ {c : HostCall} {next : c.Answer → Handler Int} {format func : String}
      {args : List Arg} {α : Type} {value : α → Int} {outcome : c.Answer → Except Errno α},
      request.Serves c → (∀ answer, next answer = fromHost value (outcome answer)) →
        format ∈ logFormats → Built speaks own (loggedCall format args func (.call c next)) :=
    fun serves follows known => built_loggedCall speaking known follows (serving _ serves)
  cases request with
  | getattr => exact single .getattr (fun _ => rfl) (by simp [logFormats])
  | access =>
      refine .sequence (built_hostCall (fun _ => rfl) (serving _ .access)) fun result => ?_
      split
      · exact built_negatedErrno
      · exact .done _
  | readlink => exact built_nosqlFSReadlink speaking serving
  | readdir => exact built_nosqlFSReaddir speaking serving
  | mknod =>
      refine .sequence (.message (speaking _ (by simp [logFormats]))) fun _ => ?_
      refine .sequence (built_mknodBranches speaking serving) fun retstat => ?_
      split
      · exact built_negatedErrno
      · exact .done _
  | mkdir => exact single .mkdir (fun _ => rfl) (by simp [logFormats])
  | symlink => exact single .symlink (fun _ => rfl) (by simp [logFormats])
  | unlink => exact single .unlink (fun _ => rfl) (by simp [logFormats])
  | rmdir => exact single .rmdir (fun _ => rfl) (by simp [logFormats])
  | rename => exact single .rename (fun _ => rfl) (by simp [logFormats])
  | link => exact single .link (fun _ => rfl) (by simp [logFormats])
  | chmod => exact single .chmod (fun _ => rfl) (by simp [logFormats])
  | chown => exact single .chown (fun _ => rfl) (by simp [logFormats])
  | truncate => exact single .truncate (fun _ => rfl) (by simp [logFormats])
  | openFile => exact built_nosqlFSOpen speaking serving
  | read => exact built_nosqlFSRead speaking serving
  | write => exact built_nosqlFSWrite speaking serving
  | statfs => exact single .statfs (fun _ => rfl) (by simp [logFormats])
  | release =>
      exact .sequence (.message (speaking _ (by simp [logFormats]))) fun _ => .done _

/-- So does a thread that serves requests one after the other. -/
theorem built_serve {requests : List Request}
    (serving : ∀ request ∈ requests, ∀ c, request.Serves c → own c) :
    Built speaks own (serve requests) := by
  induction requests with
  | nil => exact .done _
  | cons request rest ih =>
      refine .sequence (built_nosqlFSOper speaking (serving request List.mem_cons_self)) fun _ => ?_
      exact ih fun other member => serving other (List.mem_cons_of_mem _ member)

end Log

/-- A request makes no calls but the log's and those of the table. -/
theorem all_nosqlFSOper {request : Request} (logging : ∀ c, c.isLog = true → condition c)
    (permitted : ∀ c, request.Serves c → condition c) : All condition (nosqlFSOper request) :=
  (@built_nosqlFSOper (fun _ => True) _ (fun _ _ => trivial) _ fun _ serves => serves).all
    (fun c logs => logging c logs.isLog) permitted

end Built

/-! ## A removal -/

/-- A successful `nosqlFS_unlink` with nothing that disturbs its messages. -/
def unlinkTrace (stream : Nat) (path : Bytes) : HostTrace :=
  quietly stream [("nosqlFS_unlink(path = \"%s\")\n", [.str path])] ++
    ⟨.unlink path, .ok ()⟩ :: quietly stream [(retstatFormat, [.str (ascii "unlink"), .int 0])]

theorem exec_unlink (s : ThreadLocal) (path : Bytes) :
    Exec s (nosqlFSOper (.unlink path)) (unlinkTrace s.stream path) s 0 := by
  have removed : Exec s (unlink path) [⟨.unlink path, .ok ()⟩] s 0 := .call _ (.done _ _)
  have returned : Exec s (logSyscall "unlink" 0 0)
      (quietly s.stream [(retstatFormat, [.str (ascii "unlink"), .int 0])]) s 0 :=
    exec_logSyscall_iff.mpr ⟨quietStep, .inl ⟨by decide, List.append_nil _, rfl, rfl⟩⟩
  refine exec_andThen_iff.mpr ⟨_, _, _, _, rfl, exec_logMsg_quietly .., ?_⟩
  exact exec_andThen_iff.mpr ⟨_, _, _, _, rfl, removed, returned⟩

theorem exec_unlinks (s : ThreadLocal) (paths : List Bytes) :
    Exec s (serve (paths.map .unlink)) (paths.flatMap (unlinkTrace s.stream)) s () := by
  induction paths with
  | nil => exact .done _ _
  | cons path paths ih => exact exec_andThen_iff.mpr ⟨_, _, _, _, rfl, exec_unlink s path, ih⟩

end NosqlFS
