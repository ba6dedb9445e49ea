import NosqlFS.Runs.Files
import NosqlFS.Text.Memory

/-!
# The target of a symbolic link

`nosqlFS_readlink` lets the host copy a target into the caller's buffer and stores the
terminating NUL itself, at the count the host returned.  It stores nothing when this
count is zero, or is not positive as an `int`.
-/

namespace NosqlFS

open Interaction Text

variable {s s' : ThreadLocal} {t : HostTrace} {reply : Int} {path : Bytes}

/-! ## Buffers -/

/-- The caller's buffer; its size is a positive `size_t`. -/
structure LinkBuffer where
  address : Nat
  size : Nat
  nonempty : 1 ≤ size
  sizeT : size < 2 ^ 64

/-- The target of a link is a string without NUL. -/
structure LinkTarget where
  text : Bytes
  clean : 0 ∉ text

/-- The part of a target that the buffer has room for, next to the NUL. -/
def LinkTarget.kept (target : LinkTarget) (buffer : LinkBuffer) : Bytes :=
  target.text.take (buffer.size - 1)

/-- The address and bytes that a call leaves in the caller's memory. -/
def written : HostEvent → Option (Nat × Bytes)
  | ⟨.readlink _ link _, .ok copied⟩ => some (link, copied)
  | ⟨.store address byte, _⟩ => some (address, [byte])
  | ⟨.pread _ buf _ _, .ok copied⟩ => some (buf, copied)
  | _ => none

def writes (t : HostTrace) : List (Nat × Bytes) := t.filterMap written

/-- The caller's memory after a run. -/
def memoryAfter (t : HostTrace) (before : Memory) : Memory :=
  (writes t).foldl (fun memory region => memory.write region.1 region.2) before

@[simp]
theorem writes_hostEvents (t : HostTrace) : writes (hostEvents t) = writes t :=
  filterMap_hostEvents fun ⟨c, _⟩ logged => by cases c <;> first | rfl | cases logged

/-- The host's `readlink` copies what fits of the target, without a terminator. -/
def CopiesTarget (target : LinkTarget) (t : HostTrace) : Prop :=
  ∀ path link size copied, (⟨.readlink path link size, .ok copied⟩ : HostEvent) ∈ t →
    copied = target.text.take size

theorem LinkTarget.kept_length_lt (target : LinkTarget) (buffer : LinkBuffer) :
    (target.kept buffer).length < buffer.size := by
  have positive := buffer.nonempty
  rw [LinkTarget.kept, List.length_take]
  omega

theorem LinkTarget.kept_clean (target : LinkTarget) (buffer : LinkBuffer) :
    0 ∉ target.kept buffer :=
  fun member => target.clean (List.mem_of_mem_take member)

/-! ## What the caller is owed -/

/-- The run wrote inside the buffer only, and left in it the part of the target that it
has room for, terminated, as its C string. -/
structure HoldsTarget (target : LinkTarget) (buffer : LinkBuffer) (before : Memory)
    (t : HostTrace) : Prop where
  inside : ∀ region ∈ writes t, buffer.address ≤ region.1 ∧
    region.1 + region.2.length ≤ buffer.address + buffer.size
  terminated : (memoryAfter t before).bytesAt buffer.address
    ((target.kept buffer).length + 1) = target.kept buffer ++ [0]
  string : (memoryAfter t before).cString buffer.address buffer.size = target.kept buffer

/-- A failure is reported as it is; a success leaves the target in the buffer. -/
structure ReadlinkExact (target : LinkTarget) (buffer : LinkBuffer) (before : Memory)
    (t : HostTrace) (reply : Int) : Prop where
  failed : ∀ e ∈ failures t, reply = -e.code
  succeeded : failures t = [] → reply = 0 ∧ HoldsTarget target buffer before t

/-- The copied count is positive and fits an `int`; otherwise the byte that should
become the NUL is one already, and the count converts to zero, or to a negative `int`
while `errno` is zero. -/
def Terminates (target : LinkTarget) (buffer : LinkBuffer) (before : Memory)
    (errno : Int) : Prop :=
  0 < (target.kept buffer).length ∧ (target.kept buffer).length < 2 ^ 31 ∨
    before (buffer.address + (target.kept buffer).length) = 0 ∧
      (toInt (target.kept buffer).length = 0 ∨
        toInt (target.kept buffer).length < 0 ∧ errno = 0)

/-! ## Runs -/

theorem exec_readlink_iff {link size : Nat} {result : Int} :
    Exec s (readlink path link size) t s' result ↔ ∃ answer : Except Errno Bytes,
      t = [⟨.readlink path link size, answer⟩] ∧
        Delivers (fun copied => copied.length) (fun _ => -1) s answer s' result :=
  exec_hostCall_iff fun _ => rfl

/-- The handler fails with the host, or terminates a positive count, or returns the
negated `errno` or zero without a terminator. -/
theorem exec_nosqlFSReadlink {link size : Nat}
    (run : Exec s (nosqlFSReadlink path link size) t s' reply) (quiet : LogsKeepErrno t)
    (valid : 0 ≤ s.errno) :
    (∃ e : Errno, hostEvents t =
        [⟨.readlink path link ((size + (2 ^ 64 - 1)) % 2 ^ 64), .error e⟩] ∧ reply = -e.code) ∨
    ∃ copied : Bytes,
      (0 < toInt copied.length ∧ reply = 0 ∧ hostEvents t =
        [⟨.readlink path link ((size + (2 ^ 64 - 1)) % 2 ^ 64), .ok copied⟩,
          ⟨.store (link + (toInt copied.length).toNat) 0, ()⟩]) ∨
      (toInt copied.length ≤ 0 ∧
        reply = (if toInt copied.length = 0 then 0 else -s.errno) ∧ hostEvents t =
        [⟨.readlink path link ((size + (2 ^ 64 - 1)) % 2 ^ 64), .ok copied⟩]) := by
  have linking : ∀ size, (HostCall.readlink path link size).isLog = false := fun _ => rfl
  have storing : ∀ address, (HostCall.store address 0).isLog = false := fun _ => rfl
  unfold nosqlFSReadlink at run
  generalize (size + (2 ^ 64 - 1)) % 2 ^ 64 = capacity at run ⊢
  simp only [Program.bind_eq, Program.pure_eq, exec_andThen_iff, exec_readlink_iff] at run
  obtain ⟨t₁, _, s₁, _, rfl, entry, _, _, s₂, result, rfl, ⟨answer, rfl, delivers⟩, t₂, t₃, s₃,
    retstat, rfl, logged, verdict⟩ := run
  simp only [logsKeepErrno_append] at quiet
  have entered := logMsg_silent entry quiet.1
  obtain ⟨silent, translated⟩ := logSyscall_silent logged quiet.2.2.1
  have whole : ∀ u, hostEvents (t₁ ++ ([⟨.readlink path link capacity, answer⟩] ++ (t₂ ++ u))) =
      ⟨.readlink path link capacity, answer⟩ :: hostEvents u := by
    intro u
    simp [hostEvents_cons, entered.noHostEvents, silent.noHostEvents, linking]
  rw [whole]
  rw [entered.register] at delivers
  rcases delivers with ⟨copied, rfl, rfl, rfl⟩ | ⟨e, rfl, rfl, rfl⟩
  · beta_reduce at translated
    refine .inr ⟨copied, ?_⟩
    generalize toInt copied.length = count at translated ⊢
    by_cases counted : 0 < count
    · rw [if_pos (Int.le_of_lt counted)] at translated
      subst translated
      rw [if_pos counted] at verdict
      obtain ⟨_, _, _, _, rfl, stores, ended⟩ := exec_andThen_iff.mp verdict
      obtain ⟨⟨⟩, _, rfl, stored⟩ := exec_call_iff.mp stores
      obtain ⟨rfl, _, _⟩ := exec_done_iff.mp stored
      obtain ⟨rfl, _, rfl⟩ := exec_done_iff.mp ended
      refine .inl ⟨counted, rfl, ?_⟩
      simp [hostEvents_cons, storing]
    · have uncounted : ¬ 0 < retstat := by
        rw [translated]
        split <;> omega
      rw [if_neg uncounted] at verdict
      obtain ⟨rfl, _, rfl⟩ := exec_done_iff.mp verdict
      refine .inr ⟨by omega, ?_, by rw [hostEvents_nil]⟩
      rw [translated]
      split <;> split <;> omega
  · have translates : toInt (-1) = -1 := by decide
    have positive := e.positive
    rw [translates, if_neg (by decide), withErrno_errno] at translated
    rw [if_neg (by omega)] at verdict
    obtain ⟨rfl, _, rfl⟩ := exec_done_iff.mp verdict
    exact .inl ⟨e, by rw [hostEvents_nil], translated⟩

/-! ## What is left in the buffer -/

section Buffer

variable {target : LinkTarget} {buffer : LinkBuffer} {before : Memory} {capacity : Nat}

theorem capacity_eq (buffer : LinkBuffer) :
    (buffer.size + (2 ^ 64 - 1)) % 2 ^ 64 = buffer.size - 1 := by
  have positive := buffer.nonempty
  have bounded := buffer.sizeT
  omega

/-- A terminated text is the C string of the buffer, since the target has no NUL. -/
theorem holdsTarget_of_terminated
    (inside : ∀ region ∈ writes t, buffer.address ≤ region.1 ∧
      region.1 + region.2.length ≤ buffer.address + buffer.size)
    (terminated : (memoryAfter t before).bytesAt buffer.address
      ((target.kept buffer).length + 1) = target.kept buffer ++ [0]) :
    HoldsTarget target buffer before t :=
  ⟨inside, terminated,
    Memory.cString_eq (target.kept_clean buffer) (target.kept_length_lt buffer) terminated⟩

/-- Without a store the terminator is whatever the buffer held in its place. -/
theorem holdsTarget_unstored_iff
    (made : hostEvents t = [⟨.readlink path buffer.address capacity, .ok (target.kept buffer)⟩]) :
    HoldsTarget target buffer before t ↔
      before (buffer.address + (target.kept buffer).length) = 0 := by
  have room := target.kept_length_lt buffer
  have listed : writes t = [(buffer.address, target.kept buffer)] := by
    rw [← writes_hostEvents, made]
    rfl
  have left : (memoryAfter t before).bytesAt buffer.address
      ((target.kept buffer).length + 1) = target.kept buffer ++
        [before (buffer.address + (target.kept buffer).length)] := by
    rw [memoryAfter, listed, List.foldl_cons, List.foldl_nil, Memory.bytesAt_succ,
      Memory.bytesAt_write, Memory.write_beyond (Nat.le_refl _)]
  constructor
  · intro holds
    have terminated := holds.terminated
    rw [left] at terminated
    exact List.singleton_inj.mp (List.append_cancel_left terminated)
  · intro zero
    refine holdsTarget_of_terminated (fun region member => ?_) (by rw [left, zero])
    rw [listed, List.mem_singleton] at member
    subst member
    exact ⟨Nat.le_refl _, Nat.add_le_add_left (Nat.le_of_lt room) _⟩

section Stored

variable {i : Nat}
  (made : hostEvents t = [⟨.readlink path buffer.address capacity, .ok (target.kept buffer)⟩,
    ⟨.store (buffer.address + i) 0, ()⟩])

include made

theorem writes_stored :
    writes t = [(buffer.address, target.kept buffer), (buffer.address + i, [0])] := by
  rw [← writes_hostEvents, made]
  rfl

theorem memoryAfter_stored : memoryAfter t before =
    (before.write buffer.address (target.kept buffer)).write (buffer.address + i) [0] := by
  rw [memoryAfter, writes_stored made]
  rfl

/-- A NUL stored after the copied bytes terminates them. -/
theorem holdsTarget_of_stored (placed : i = (target.kept buffer).length) :
    HoldsTarget target buffer before t := by
  have room := target.kept_length_lt buffer
  subst placed
  refine holdsTarget_of_terminated (fun region member => ?_) ?_
  · rw [writes_stored made] at member
    simp only [List.mem_cons, List.not_mem_nil, or_false] at member
    rcases member with rfl | rfl
    · exact ⟨Nat.le_refl _, Nat.add_le_add_left (Nat.le_of_lt room) _⟩
    · exact ⟨Nat.le_add_right _ _, Nat.add_le_add_left room _⟩
  · rw [memoryAfter_stored made, Memory.bytesAt_succ, Memory.bytesAt_write_behind,
      Memory.bytesAt_write, Memory.write_single]

/-- A NUL stored among the copied bytes destroys one of them. -/
theorem not_holdsTarget_of_stored (early : i < (target.kept buffer).length) :
    ¬ HoldsTarget target buffer before t := by
  intro holds
  have read := congrArg (fun bytes => bytes[i]?) holds.terminated
  rw [memoryAfter_stored made] at read
  simp only [Memory.bytesAt, List.getElem?_map, List.getElem?_range (Nat.lt_succ_of_lt early),
    Option.map_some, Memory.write_single, List.getElem?_append_left early] at read
  have zero : (0 : UInt8) ∈ target.kept buffer := List.mem_of_getElem? read.symm
  exact target.kept_clean buffer zero

end Stored

/-- The reply and the buffer of a success, by the sign of the converted count. -/
theorem readlink_succeeds_iff {size : Nat} {copied : Bytes} (kept : copied = target.kept buffer)
    (outcome : (0 < toInt copied.length ∧ reply = 0 ∧ hostEvents t =
        [⟨.readlink path buffer.address size, .ok copied⟩,
          ⟨.store (buffer.address + (toInt copied.length).toNat) 0, ()⟩]) ∨
      (toInt copied.length ≤ 0 ∧
        reply = (if toInt copied.length = 0 then 0 else -s.errno) ∧ hostEvents t =
        [⟨.readlink path buffer.address size, .ok copied⟩])) :
    reply = 0 ∧ HoldsTarget target buffer before t ↔
      Terminates target buffer before s.errno := by
  subst kept
  unfold Terminates
  have below := toInt_lt (target.kept buffer).length
  rcases outcome with ⟨counted, rfl, made⟩ | ⟨uncounted, replied, made⟩
  · by_cases small : (target.kept buffer).length < 2 ^ 31
    · have converted : toInt (target.kept buffer).length = (target.kept buffer).length :=
        toInt_of_small (by omega) (by omega)
      have placed : (toInt (target.kept buffer).length).toNat = (target.kept buffer).length := by
        rw [converted, Int.toNat_natCast]
      have holds := @holdsTarget_of_stored _ _ _ _ before _ _ made placed
      exact ⟨fun _ => .inl ⟨by omega, small⟩, fun _ => ⟨rfl, holds⟩⟩
    · have broken := @not_holdsTarget_of_stored _ _ _ _ before _ _ made (by omega)
      constructor
      · rintro ⟨_, holds⟩
        exact absurd holds broken
      · rintro (⟨_, short⟩ | ⟨_, zero | ⟨negative, _⟩⟩)
        · exact absurd short small
        · omega
        · omega
  · have uncopied : ¬ (0 < (target.kept buffer).length ∧
        (target.kept buffer).length < 2 ^ 31) := by
      rintro ⟨positive, small⟩
      have converted : toInt (target.kept buffer).length = (target.kept buffer).length :=
        toInt_of_small (by omega) (by omega)
      omega
    rw [holdsTarget_unstored_iff made, or_iff_right uncopied, and_comm, replied]
    refine and_congr_right fun _ => ?_
    split <;> omega

end Buffer

/-! ## Every run -/

/-- A link is read as the caller needs it exactly when the host fails, or copies a
positive count of bytes that fits an `int`, or the terminator was there before. -/
theorem readlink_exact_iff {target : LinkTarget} {buffer : LinkBuffer} {before : Memory}
    (run : Exec s (nosqlFSReadlink path buffer.address buffer.size) t s' reply)
    (quiet : LogsKeepErrno t) (valid : 0 ≤ s.errno) (host : CopiesTarget target t) :
    ReadlinkExact target buffer before t reply ↔
      (failures t = [] → Terminates target buffer before s.errno) := by
  have outcome := exec_nosqlFSReadlink run quiet valid
  rw [capacity_eq] at outcome
  rcases outcome with ⟨e, made, rfl⟩ | ⟨copied, outcome⟩
  · have failing : failures t = [e] := by
      rw [← failures_hostEvents, made]
      rfl
    constructor
    · intro _ none
      rw [failing] at none
      cases none
    · intro _
      refine ⟨fun e' member => ?_, fun none => ?_⟩
      · rw [failing, List.mem_singleton] at member
        rw [member]
      · rw [failing] at none
        cases none
  · have passing : failures t = [] := by
      rw [← failures_hostEvents]
      rcases outcome with ⟨_, _, made⟩ | ⟨_, _, made⟩ <;> rw [made] <;> rfl
    have kept : copied = target.kept buffer := by
      refine host path buffer.address (buffer.size - 1) copied (mem_hostEvents_iff.mp ?_).1
      rcases outcome with ⟨_, _, made⟩ | ⟨_, _, made⟩ <;> rw [made] <;> exact List.mem_cons_self
    have verdict := @readlink_succeeds_iff s _ _ _ target buffer before _ _ kept outcome
    constructor
    · intro reported none
      exact verdict.mp (reported.succeeded none)
    · intro terminates
      refine ⟨fun e member => ?_, fun none => verdict.mpr (terminates none)⟩
      rw [passing] at member
      cases member

/-! ## Two runs -/

def readlinkMessage : HostTrace :=
  quietly startThread.stream
    [("nosqlFS_readlink(path = \"%s\", link = \"S\", size = %d)\n",
      [.str (ascii "/l"), .int 64, .str (ascii "/l")])]

/-- A buffer that holds stale bytes. -/
def staleMemory : Memory := fun _ => 120

/-- A buffer of two bytes has room for the first byte of the target. -/
def smallBuffer : LinkBuffer := ⟨64, 2, by decide, by decide⟩

def longTarget : LinkTarget := ⟨[97, 98], by decide⟩

def truncatedLinkTrace : HostTrace :=
  readlinkMessage ++ ⟨.readlink (ascii "/l") 64 1, .ok [97]⟩ ::
    (retstatEvents startThread.stream "readlink" 1 quietStep ++ [⟨.store 65 0, ()⟩])

theorem exec_truncatedLink :
    Exec startThread (nosqlFSReadlink (ascii "/l") 64 2) truncatedLinkTrace startThread 0 := by
  have replayed : run recording 0 (nosqlFSReadlink (ascii "/l") 64 2) startThread
      truncatedLinkTrace = some (0, startThread, []) := by rfl
  exact exec_of_recording replayed

theorem truncatedLink_exact :
    ReadlinkExact longTarget smallBuffer staleMemory truncatedLinkTrace 0 := by
  have made : hostEvents truncatedLinkTrace =
      [⟨.readlink (ascii "/l") 64 1, .ok [97]⟩, ⟨.store 65 0, ()⟩] := by rfl
  have quiet : LogsKeepErrno truncatedLinkTrace := by
    simp [truncatedLinkTrace, readlinkMessage, quietly, LogsKeepErrno, messages_cons, messageOf,
      quietStep]
  have host : CopiesTarget longTarget truncatedLinkTrace := by
    intro path link size copied member
    have among := mem_hostEvents_iff.mpr ⟨member, rfl⟩
    rw [made] at among
    simp only [List.mem_cons, List.not_mem_nil, or_false] at among
    rcases among with same | same <;> cases same
    rfl
  exact (@readlink_exact_iff _ _ _ _ _ longTarget smallBuffer _ exec_truncatedLink quiet (by decide) host).mpr
    fun _ => .inl (by decide)

/-- The buffer of `fuse_lib_readlink`. -/
def pathMaxBuffer : LinkBuffer := ⟨64, 4097, by decide, by decide⟩

def emptyTarget : LinkTarget := ⟨[], List.not_mem_nil⟩

def emptyLinkTrace : HostTrace :=
  readlinkMessage ++ ⟨.readlink (ascii "/l") 64 4096, .ok []⟩ ::
    retstatEvents startThread.stream "readlink" 0 quietStep

theorem exec_emptyLink :
    Exec startThread (nosqlFSReadlink (ascii "/l") 64 4097) emptyLinkTrace startThread 0 := by
  have replayed : run recording 0 (nosqlFSReadlink (ascii "/l") 64 4097) startThread
      emptyLinkTrace = some (0, startThread, []) := by rfl
  exact exec_of_recording replayed

/-- An empty target leaves the stale bytes of the buffer unterminated. -/
theorem readlink_not_exact :
    ¬ ∀ (target : LinkTarget) (buffer : LinkBuffer) (before : Memory) (s s' : ThreadLocal)
      (t : HostTrace) (path : Bytes) (reply : Int),
      Exec s (nosqlFSReadlink path buffer.address buffer.size) t s' reply → LogsKeepErrno t →
      0 ≤ s.errno → CopiesTarget target t → ReadlinkExact target buffer before t reply := by
  intro claim
  have made : hostEvents emptyLinkTrace = [⟨.readlink (ascii "/l") 64 4096, .ok []⟩] := by rfl
  have quiet : LogsKeepErrno emptyLinkTrace := by
    simp [emptyLinkTrace, readlinkMessage, quietly, LogsKeepErrno, messages_cons, messageOf,
      quietStep]
  have host : CopiesTarget emptyTarget emptyLinkTrace := by
    intro path link size copied member
    have among := mem_hostEvents_iff.mpr ⟨member, rfl⟩
    rw [made] at among
    cases List.mem_singleton.mp among
    exact List.take_nil.symm
  have holds := (claim emptyTarget pathMaxBuffer staleMemory _ _ _ _ _ exec_emptyLink quiet
    (by decide) host).succeeded (by rw [← failures_hostEvents, made]; rfl)
  have terminator := (holdsTarget_unstored_iff made).mp holds.2
  cases terminator

end NosqlFS
