import NosqlFS.Listing.Stream

/-!
# Listing a directory

`nosqlFS_readdir` hands the filler exactly the entries it accepts and the first it
refuses.  It ends its loop on any NULL, so a stream that fails is reported as one that
was read to its end.
-/

namespace NosqlFS

open Interaction Text

variable {State : Type} {s s' : ThreadLocal} {t : HostTrace} {reply offset : Int}
  {path : Bytes} {buf fillerAddress flags : Nat} {fi : Pointer FuseFileInfo}
  {directory : Directory} {filler : Filler State} {state : State} {w' : Listing State}

/-! ## Truncated listings -/

/-- The stream was read to its true end. -/
def ReachedEnd (t : HostTrace) : Prop := ∃ dp, (⟨.readdir dp, .finish⟩ : HostEvent) ∈ t

/-- A zero reply means a whole listing or a refusal; a failure of the stream after
nothing but acceptances is reported, and the stream is closed once. -/
structure NeverTruncated (t : HostTrace) (reply : Int) : Prop where
  complete : reply = 0 → ReachedEnd t ∨ FillerRefused t
  reported : ∀ dp e, (⟨.readdir dp, .failed e⟩ : HostEvent) ∈ t → ¬ FillerRefused t →
    reply = -e.code ∧ ∃ closed, closings t = [closed]

/-- If the directory opens and its stream fails, the filler refuses an entry first. -/
def FailsOnlyAfterRefusal (directory : Directory) (filler : Filler State) (buf : Nat)
    (state : State) : Prop :=
  ∀ dp e, directory.opened = .ok dp → directory.ending = some e →
    (filler.acceptor buf).refuses state directory.entries = true

theorem readdir_mem_hostEvents_iff {dp : Nat} {answer : ReaddirResult} :
    (⟨.readdir dp, answer⟩ : HostEvent) ∈ hostEvents t ↔ ⟨.readdir dp, answer⟩ ∈ t :=
  mem_hostEvents_iff.trans (and_iff_left rfl)

/-- A directory that does not open is not listed, and the reply says so. -/
theorem neverTruncated_of_unopened {e : Errno}
    (made : hostEvents t = [⟨.opendir path, .error e⟩]) (nonzero : reply ≠ 0) :
    NeverTruncated t reply := by
  refine ⟨fun zero => absurd zero nonzero, fun dp e' member => ?_⟩
  rw [← readdir_mem_hostEvents_iff, made] at member
  cases List.mem_singleton.mp member

section Opened

variable {dp : Nat} {u : HostTrace} {closed : Except Errno Unit}
  (listed : Listed directory filler dp buf state directory.entries u)
  (made : hostEvents t = ⟨.opendir path, .ok dp⟩ :: (u ++ [⟨.closedir dp, closed⟩]))

include made

theorem readdir_mem_iff {other : Nat} {answer : ReaddirResult} :
    (⟨.readdir other, answer⟩ : HostEvent) ∈ t ↔ ⟨.readdir other, answer⟩ ∈ u := by
  rw [← readdir_mem_hostEvents_iff, made]
  simp

include listed

theorem fillerRefused_iff :
    FillerRefused t ↔ (filler.acceptor buf).refuses state directory.entries = true := by
  rw [← fillerRefused_hostEvents_iff, made, ← listed.refused_iff, fillerRefused_cons_iff,
    fillerRefused_append_iff, fillerRefused_cons_iff, fillerRefused_nil_iff]
  simp [refusal]

/-- A stream that ends in an error is not read to its end. -/
theorem not_reachedEnd {e : Errno} (ending : directory.ending = some e) : ¬ ReachedEnd t := by
  rintro ⟨other, finished⟩
  have same := listed.stopped_of_mem (by simp) ((readdir_mem_iff made).mp finished)
  rw [Directory.stopped, ending] at same
  cases same

/-- The error a stream reports is the one it ends in. -/
theorem ending_of_failed {other : Nat} {e : Errno}
    (failed : (⟨.readdir other, .failed e⟩ : HostEvent) ∈ t) : directory.ending = some e := by
  have same := listed.stopped_of_mem (by simp) ((readdir_mem_iff made).mp failed)
  cases ending : directory.ending with
  | none =>
      rw [Directory.stopped, ending] at same
      cases same
  | some other =>
      rw [Directory.stopped, ending] at same
      cases same
      rfl

/-- A stream without an error is read to its end unless an entry is refused. -/
theorem reachedEnd_of_accepted (ending : directory.ending = none)
    (accepted : ¬ FillerRefused t) : ReachedEnd t := by
  have stopped := listed.stops (mt (fillerRefused_iff listed made).mpr accepted)
  rw [Directory.stopped, ending] at stopped
  exact ⟨dp, (readdir_mem_iff made).mpr stopped⟩

end Opened

/-- A listing is never presented as complete when it is not exactly if its stream does
not fail under a filler that accepts every entry. -/
theorem readdir_neverTruncated_iff
    (run : Exec s (nosqlFSReaddir path buf fillerAddress offset fi flags) t s' reply)
    (follows : Follows (listingStep directory filler) ⟨directory.entries, state⟩ t w') :
    NeverTruncated t reply ↔ FailsOnlyAfterRefusal directory filler buf state := by
  rcases exec_nosqlFSReaddir run follows with ⟨e, failed, made, nonzero, _⟩ |
    ⟨dp, u, closed, opened, listed, made, rfl⟩
  · constructor
    · intro _ dp e' opens
      rw [failed] at opens
      cases opens
    · intro _
      exact neverTruncated_of_unopened made nonzero
  · have refused := fillerRefused_iff listed made
    constructor
    · rintro ⟨complete, _⟩ _ e _ ending
      exact refused.mp ((complete rfl).resolve_left (not_reachedEnd listed made ending))
    · intro only
      refine ⟨fun _ => ?_, fun other e failed accepted => ?_⟩
      · by_cases refusing : FillerRefused t
        · exact .inr refusing
        · cases ending : directory.ending with
          | none => exact .inl (reachedEnd_of_accepted listed made ending refusing)
          | some e => exact absurd (refused.mpr (only dp e opened ending)) refusing
      · have ending := ending_of_failed listed made failed
        exact absurd (refused.mpr (only dp e opened ending)) accepted

/-! ## Two runs -/

/-- A directory at stream 5 with two files in it. -/
def twoEntries (ending : Option Errno) : Directory :=
  ⟨.ok 5, [⟨7, 8, ascii "a"⟩, ⟨9, 8, ascii "b"⟩], ending⟩

/-- A filler with room for so many entries. -/
def roomFor : Filler Nat
  | 0, _ => (1, 0)
  | room + 1, _ => (0, room)

def listingMessages : HostTrace :=
  quietly startThread.stream
    [("nosqlFS_opendir(path = \"%s\", fuse_file_info = 0x%08x)\n", [.str (ascii "/d"), .int 16])]

def streamMessages : HostTrace :=
  quietly startThread.stream
    [("nosqlFS_readdir(path = \"%s\", buf = 0x%08x, fuse_fill_dir_t = 0x%08x, offset = %lld, fi = 0x%08x)\n",
      [.str (ascii "/d"), .int 32, .int 64, .int 0, .int 16])]

/-- One entry handed over. -/
def handedOver (de : Dirent) (result : Int) : HostTrace :=
  ⟨.readdir 5, .entry de⟩ ::
    (quietly startThread.stream [("calling filler with name %s\n", [.str de.dName])] ++
      [⟨.filler 32 de.dName (direntStat de) 0 0, ⟨result, .keep⟩⟩])

/-- The filler has room for one of the two entries. -/
def fullBufferTrace : HostTrace :=
  listingMessages ++ ⟨.opendir (ascii "/d"), .ok 5⟩ :: (streamMessages ++
    handedOver ⟨7, 8, ascii "a"⟩ 0 ++ handedOver ⟨9, 8, ascii "b"⟩ 1 ++ [⟨.closedir 5, .ok ()⟩])

theorem exec_fullBuffer :
    Exec startThread (nosqlFSReaddir (ascii "/d") 32 64 0 plainFile 0) fullBufferTrace
      startThread 0 := by
  have replayed : run recording 3 (nosqlFSReaddir (ascii "/d") 32 64 0 plainFile 0) startThread
      fullBufferTrace = some (0, startThread, []) := by rfl
  exact exec_of_recording replayed

theorem follows_fullBuffer (ending : Option Errno) :
    Follows (listingStep (twoEntries ending) roomFor) ⟨(twoEntries ending).entries, 1⟩
      fullBufferTrace ⟨[], 0⟩ := by
  have made : hostEvents fullBufferTrace = [⟨.opendir (ascii "/d"), .ok 5⟩,
      ⟨.readdir 5, .entry ⟨7, 8, ascii "a"⟩⟩,
      ⟨.filler 32 (ascii "a") (direntStat ⟨7, 8, ascii "a"⟩) 0 0, ⟨0, .keep⟩⟩,
      ⟨.readdir 5, .entry ⟨9, 8, ascii "b"⟩⟩,
      ⟨.filler 32 (ascii "b") (direntStat ⟨9, 8, ascii "b"⟩) 0 0, ⟨1, .keep⟩⟩,
      ⟨.closedir 5, .ok ()⟩] := by rfl
  rw [← follows_hostEvents_iff (listingStep_of_isLog _ _), made]
  exact .cons ⟨rfl, rfl⟩ (.cons ⟨rfl, rfl⟩ (.cons ⟨rfl, rfl⟩ (.cons ⟨rfl, rfl⟩
    (.cons ⟨rfl, rfl⟩ (.cons rfl (.nil _))))))

theorem fullBuffer_neverTruncated : NeverTruncated fullBufferTrace 0 :=
  (readdir_neverTruncated_iff exec_fullBuffer (follows_fullBuffer (some .eio))).mpr
    fun _ _ _ _ => rfl

/-- The stream fails after its two entries. -/
def brokenStreamTrace : HostTrace :=
  listingMessages ++ ⟨.opendir (ascii "/d"), .ok 5⟩ :: (streamMessages ++
    handedOver ⟨7, 8, ascii "a"⟩ 0 ++ handedOver ⟨9, 8, ascii "b"⟩ 0 ++
    [⟨.readdir 5, .failed .eio⟩, ⟨.closedir 5, .ok ()⟩])

theorem exec_brokenStream :
    Exec startThread (nosqlFSReaddir (ascii "/d") 32 64 0 plainFile 0) brokenStreamTrace
      (startThread.withErrno 5) 0 := by
  have replayed : run recording 3 (nosqlFSReaddir (ascii "/d") 32 64 0 plainFile 0) startThread
      brokenStreamTrace = some (0, startThread.withErrno 5, []) := by rfl
  exact exec_of_recording replayed

/-- A listing cut short by `EIO` is presented as complete. -/
theorem readdir_truncated :
    ¬ ∀ (directory : Directory) (filler : Filler Nat) (state : Nat) (s s' : ThreadLocal)
      (t : HostTrace) (path : Bytes) (buf fillerAddress flags : Nat) (offset : Int)
      (fi : Pointer FuseFileInfo) (reply : Int) (w' : Listing Nat),
      Exec s (nosqlFSReaddir path buf fillerAddress offset fi flags) t s' reply →
      Follows (listingStep directory filler) ⟨directory.entries, state⟩ t w' →
      NeverTruncated t reply := by
  intro claim
  have made : hostEvents brokenStreamTrace = [⟨.opendir (ascii "/d"), .ok 5⟩,
      ⟨.readdir 5, .entry ⟨7, 8, ascii "a"⟩⟩,
      ⟨.filler 32 (ascii "a") (direntStat ⟨7, 8, ascii "a"⟩) 0 0, ⟨0, .keep⟩⟩,
      ⟨.readdir 5, .entry ⟨9, 8, ascii "b"⟩⟩,
      ⟨.filler 32 (ascii "b") (direntStat ⟨9, 8, ascii "b"⟩) 0 0, ⟨0, .keep⟩⟩,
      ⟨.readdir 5, .failed .eio⟩, ⟨.closedir 5, .ok ()⟩] := by rfl
  have follows : Follows (listingStep (twoEntries (some .eio)) roomFor)
      ⟨(twoEntries (some .eio)).entries, 2⟩ brokenStreamTrace ⟨[], 0⟩ := by
    rw [← follows_hostEvents_iff (listingStep_of_isLog _ _), made]
    exact .cons ⟨rfl, rfl⟩ (.cons ⟨rfl, rfl⟩ (.cons ⟨rfl, rfl⟩ (.cons ⟨rfl, rfl⟩
      (.cons ⟨rfl, rfl⟩ (.cons ⟨rfl, rfl⟩ (.cons rfl (.nil _)))))))
  rcases (claim _ _ _ _ _ _ _ _ _ _ _ _ _ _ exec_brokenStream follows).complete rfl with
    ⟨dp, ended⟩ | refused
  · rw [← readdir_mem_hostEvents_iff, made] at ended
    simp at ended
  · rw [← fillerRefused_hostEvents_iff, made] at refused
    simp [fillerRefused_cons_iff, fillerRefused_nil_iff, refusal] at refused

/-! ## The accepted prefix -/

/-- What the handler does with an opened directory of which it offers the entries
`offered`: exactly one call of the filler for each, one close after everything else,
and a zero reply.  The host calls depend on nothing but the arguments shown here. -/
structure DeliversPrefix (path : Bytes) (dp buf : Nat) (offered : List Dirent)
    (refused : Bool) (t : HostTrace) (reply : Int) : Prop where
  filled : fillerCalls t = offered.map (entryCall buf)
  made : hostCalls t =
    .opendir path :: (offeringCalls dp buf offered refused ++ [.closedir dp])
  closedOnce : closings t = [dp]
  succeeded : reply = 0

/-- What the handler does when the directory does not open. -/
structure ReportsOpendir (path : Bytes) (e : Errno) (t : HostTrace) (reply : Int) : Prop where
  made : hostCalls t = [.opendir path]
  failed : reply = -e.code

theorem nosqlFSReaddir_delivers
    (run : Exec s (nosqlFSReaddir path buf fillerAddress offset fi flags) t s' reply)
    (follows : Follows (listingStep directory filler) ⟨directory.entries, state⟩ t w') :
    (∀ dp, directory.opened = .ok dp →
      DeliversPrefix path dp buf ((filler.acceptor buf).offered state directory.entries)
        ((filler.acceptor buf).refuses state directory.entries) t reply) ∧
    (∀ e, directory.opened = .error e → LogsKeepErrno t → ReportsOpendir path e t reply) := by
  rcases exec_nosqlFSReaddir run follows with ⟨e, failed, made, _, translated⟩ |
    ⟨dp, u, closed, opened, listed, made, rfl⟩
  · refine ⟨fun dp opens => ?_, fun e' fails quiet => ?_⟩
    · rw [failed] at opens
      cases opens
    · rw [failed] at fails
      cases fails
      exact ⟨by rw [hostCalls, made]; rfl, translated quiet⟩
  · refine ⟨fun dp' opens => ?_, fun e fails => ?_⟩
    · rw [opened] at opens
      cases opens
      refine ⟨?_, ?_, ?_, rfl⟩
      · rw [← fillerCalls_hostEvents, made, ← listed.fillerCalls, fillerCalls, fillerCalls,
          List.filterMap_cons_none rfl, List.filterMap_append, List.filterMap_cons_none rfl,
          List.filterMap_nil, List.append_nil]
      · rw [hostCalls, made, ← listed.calls]
        simp
      · have silent : u.filterMap closingOf = [] := listed.closings
        rw [← closings_hostEvents, made, closings, List.filterMap_cons_none rfl,
          List.filterMap_append, silent]
        rfl
    · rw [opened] at fails
      cases fails

/-! ## Every listing ends -/

/-- An environment that answers every call, with a directory and a filler in it. -/
structure ListingHost {World : Type} (directory : Directory) (filler : Filler State)
    (machine : Machine World HostCall HostCall.Answer) (view : World → Listing State) : Prop where
  responsive : machine.Responsive
  conforms : ∀ w event w', machine.Answers w event w' →
    listingStep directory filler (view w) event (view w')

/-- The answer of a host on which everything but time fails. -/
def HostCall.refused : (c : HostCall) → c.Answer
  | .time => 0
  | .localtime _ | .gmtime _ => newYear
  | .strftime _ | .fputs _ | .store .. => ()
  | .vfprintf .. => .keep
  | .strerror _ => []
  | .readdir _ => .failed .eio
  | .filler .. => ⟨1, .keep⟩
  | .malloc _ => none
  | .lstat .. | .access .. | .opendir _ | .closedir _ | .readlink .. | .openPath .. | .close _
  | .mkfifo .. | .mknod .. | .mkdir .. | .unlink _ | .rmdir _ | .symlink .. | .rename .. | .link ..
  | .chmod .. | .lchown .. | .truncate .. | .pread .. | .pwrite .. | .statvfs .. | .realpath _
  | .fopen .. => .error .eio

/-- A directory and a filler on such a host. -/
def listingMachine (directory : Directory) (filler : Filler State) :
    Machine (Listing State) HostCall HostCall.Answer
  | w, .opendir _ => some (directory.opened, w)
  | w, .readdir _ =>
      match w.remaining with
      | [] => some (directory.stopped, w)
      | de :: rest => some (.entry de, ⟨rest, w.state⟩)
  | w, .filler buf name stbuf off flags =>
      let (result, state) := filler w.state ⟨buf, name, stbuf, off, flags⟩
      some (⟨result, .keep⟩, ⟨w.remaining, state⟩)
  | w, c => some (c.refused, w)

/-- Every directory and every filler has a host. -/
theorem listingHost_listingMachine (directory : Directory) (filler : Filler State) :
    ListingHost directory filler (listingMachine directory filler) id := by
  refine ⟨fun w c => ?_, fun w event w' answers => ?_⟩
  · cases c with
    | readdir dp =>
        obtain ⟨remaining, state⟩ := w
        cases remaining <;> exact ⟨_, rfl⟩
    | _ => exact ⟨_, rfl⟩
  · obtain ⟨c, answer⟩ := event
    cases c with
    | readdir dp =>
        obtain ⟨remaining, state⟩ := w
        cases remaining <;> cases answers <;> exact ⟨rfl, rfl⟩
    | _ =>
        cases answers
        first
        | rfl
        | exact ⟨rfl, rfl⟩

theorem logMsg_loopFree (format : String) (args : List Arg) : LoopFree (logMsg format args) :=
  fun _ _ _ _ _ _ _ _ => trivial

theorem logError_loopFree (func : String) : LoopFree (logError func) :=
  fun _ _ => (logMsg_loopFree _ _).andThen fun _ _ => trivial

theorem opendir_loopFree (path : Bytes) : LoopFree (opendir path) := by
  intro answer
  cases answer with
  | ok dp => trivial
  | error e => exact fun _ => trivial

theorem closedir_loopFree (dp : Nat) : LoopFree (closedir dp) := by
  intro answer
  cases answer with
  | ok _ => trivial
  | error e => exact fun _ => trivial

theorem readdirPass_loopFree (dp buf : Nat) : LoopFree (readdirPass dp buf) := by
  intro answer
  cases answer with
  | entry de => exact (logMsg_loopFree _ _).andThen fun _ _ _ => trivial
  | finish => trivial
  | failed e => exact fun _ => trivial

section Termination

variable {World : Type} {machine : Machine World HostCall HostCall.Answer}
  {view : World → Listing State} {w : World}

theorem ListingHost.remaining_le (host : ListingHost directory filler machine view)
    {α : Type} {program : Handler α} {fuel : Nat} {value : α} {last : World}
    (returned : run machine fuel program s w = some (value, s', last)) :
    (view last).remaining.length ≤ (view w).remaining.length := by
  obtain ⟨t, _, follows⟩ := run_sound returned
  exact @Follows.le_start _ _ _ (fun w => (view w).remaining.length)
    (fun w event w' answers => listingStep_remaining_le (host.conforms w event w' answers))
    _ _ _ follows

/-- A pass that goes on has taken an entry off the stream. -/
theorem ListingHost.pass_lowers (host : ListingHost directory filler machine view)
    {dp : Nat} {fuel : Nat} {last : World}
    (returned : run machine fuel (readdirPass dp buf) s w = some (true, s', last)) :
    (view last).remaining.length < (view w).remaining.length := by
  obtain ⟨t, pass, answered⟩ := run_sound returned
  have follows := answered.seen host.conforms
  rw [← follows_hostEvents_iff (listingStep_of_isLog directory filler)] at follows
  rcases exec_readdirPass pass with ⟨_, _, _, impossible⟩ | ⟨de, answer, made, _⟩
  · cases impossible
  · rw [made] at follows
    simp only [follows_cons_iff, follows_nil_iff] at follows
    obtain ⟨middle, reading, _, ⟨_, rfl⟩, same⟩ := follows
    rw [same]
    simp only [listingStep] at reading
    split at reading
    · next drained =>
        obtain ⟨ended, _⟩ := reading
        simp only [Directory.stopped] at ended
        split at ended <;> cases ended
    · next first rest more =>
        obtain ⟨_, rfl⟩ := reading
        rw [more]
        exact Nat.lt_succ_self _

/-- Fuel for one pass more than there are entries is enough. -/
theorem nosqlFSReaddir_finishes (host : ListingHost directory filler machine view) :
    Finishes machine ((view w).remaining.length + 1)
      (nosqlFSReaddir path buf fillerAddress offset fi flags) s w := by
  simp only [nosqlFSReaddir, Program.bind_eq, Program.pure_eq]
  refine finishes_andThen (finishes_of_loopFree host.responsive (logMsg_loopFree _ _))
    fun _ s₁ w₁ entered => ?_
  refine finishes_andThen (finishes_of_loopFree host.responsive (opendir_loopFree _))
    fun opened s₂ w₂ opens => ?_
  cases opened with
  | none => exact finishes_of_loopFree host.responsive (logError_loopFree _)
  | some dp =>
      refine finishes_andThen (finishes_of_loopFree host.responsive (logMsg_loopFree _ _))
        fun _ s₃ w₃ announced => ?_
      have enough : (view w₃).remaining.length < (view w).remaining.length + 1 :=
        Nat.lt_succ_of_le ((host.remaining_le announced).trans
          ((host.remaining_le opens).trans (host.remaining_le entered)))
      refine @finishes_loop _ _ _ _ _ machine _ _ _ _ _ (fun w => (view w).remaining.length)
        (fun s w => ?_) enough fun s w => ?_
      · obtain ⟨again, s', last, returned⟩ :=
          finishes_of_loopFree host.responsive (readdirPass_loopFree dp buf)
        refine ⟨again, s', last, returned, fun goesOn => ?_⟩
        subst goesOn
        exact host.pass_lowers returned
      · exact finishes_of_loopFree host.responsive
          ((closedir_loopFree dp).andThen fun _ => trivial)

end Termination

/-- Against any directory and any filler every listing returns and hands over exactly
the accepted prefix of the stream, whatever the offset, file information and flags. -/
theorem readdir_delivers_accepted (path : Bytes) (buf fillerAddress flags : Nat) (offset : Int)
    (fi : Pointer FuseFileInfo) (directory : Directory)
    (filler : Filler State) (state : State) (s : ThreadLocal) :
    (∀ (World : Type) (machine : Machine World HostCall HostCall.Answer)
      (view : World → Listing State) (w : World), ListingHost directory filler machine view →
      view w = ⟨directory.entries, state⟩ →
      ∃ fuel, Finishes machine fuel
        (nosqlFSReaddir path buf fillerAddress offset fi flags) s w) ∧
    ∀ (t : HostTrace) (s' : ThreadLocal) (reply : Int) (w' : Listing State),
      Exec s (nosqlFSReaddir path buf fillerAddress offset fi flags) t s' reply →
      Follows (listingStep directory filler) ⟨directory.entries, state⟩ t w' →
      (∀ dp, directory.opened = .ok dp →
        DeliversPrefix path dp buf ((filler.acceptor buf).offered state directory.entries)
          ((filler.acceptor buf).refuses state directory.entries) t reply) ∧
      (∀ e, directory.opened = .error e → LogsKeepErrno t → ReportsOpendir path e t reply) :=
  ⟨fun _ _ _ _ host _ => ⟨_, nosqlFSReaddir_finishes host⟩,
    fun _ _ _ _ run follows => nosqlFSReaddir_delivers run follows⟩

theorem fullBuffer_delivers :
    (∃ fuel, Finishes (listingMachine (twoEntries none) roomFor) fuel
      (nosqlFSReaddir (ascii "/d") 32 64 0 plainFile 0) startThread ⟨(twoEntries none).entries, 1⟩) ∧
    DeliversPrefix (ascii "/d") 5 32 (twoEntries none).entries true fullBufferTrace 0 := by
  obtain ⟨finishes, delivers⟩ := readdir_delivers_accepted (ascii "/d") 32 64 0 0 plainFile
    (twoEntries none) roomFor 1 startThread
  exact ⟨finishes _ _ _ _ (listingHost_listingMachine _ _) rfl,
    (delivers fullBufferTrace startThread 0 ⟨[], 0⟩ exec_fullBuffer (follows_fullBuffer none)).1 5 rfl⟩

end NosqlFS
