import NosqlFS.Libfuse.Listings
import NosqlFS.Listing.Readdir

/-!
# From the directory of the host to the kernel

The filler that `nosqlFS_readdir` calls is the one of libfuse.  What a reader of the mount
gets is what the directory stream of the host yields, and a listing with an entry that
libfuse could not keep is not shown at all.  Nobody tells libfuse that the stream itself has
failed: what it has yielded before is then shown as if it were everything.
-/

namespace NosqlFS

namespace Libfuse

open Interaction Text Paging DirHandle

/-- What one call of the filler meets. -/
structure Meeting where
  number : Nat
  lookup : Except Errno EntryParam
  fresh : Option Memory
  granted : Bool

def Meeting.callOf (meeting : Meeting) (call : FillerCall) : FillCall :=
  ⟨call.name, some call.stbuf, call.off, call.flags, meeting.number, meeting.lookup,
    meeting.fresh, meeting.granted⟩

/-- The handle that is being filled, and the calls so far. -/
structure FillerState where
  handle : Option DirHandle
  calls : List FillCall

/-- `fill_dir` or `fill_dir_plus` as the filler of a filesystem. -/
def libfuseFiller (conf : DirConfig) (plus : Bool) (meetings : Nat → Meeting) :
    Filler FillerState := fun state call =>
  let made := (meetings state.calls.length).callOf call
  match state.handle.bind fun dh => fill conf plus dh made with
  | none => (1, ⟨none, state.calls ++ [made]⟩)
  | some (result, dh) => (result, ⟨some dh, state.calls ++ [made]⟩)

/-! ## The filler in a run -/

section Runs

variable {State : Type} {directory : Directory} {filler : Filler State} {w w' : Listing State}
  {t : HostTrace}

/-- Only the calls of the filler change its state. -/
theorem state_of_follows (follows : Follows (listingStep directory filler) w t w') :
    w'.state = (fillerCalls t).foldl (fun state call => (filler state call).2) w.state := by
  induction follows with
  | nil w => rfl
  | @cons w middle w' event t first rest ih =>
      obtain ⟨c, answer⟩ := event
      cases c with
      | filler buf name stbuf off flags =>
          obtain ⟨_, rfl⟩ := first
          exact ih
      | opendir path =>
          obtain ⟨_, rfl⟩ := first
          exact ih
      | readdir dp =>
          have same : middle.state = w.state := by
            simp only [listingStep] at first
            split at first
            · rw [first.2]
            · rw [first.2]
          rw [ih, same]
          rfl
      | _ =>
          cases first
          exact ih

end Runs

/-- The calls of the filler for the entries of a stream, from a count on. -/
def callsFor (meetings : Nat → Meeting) (buf : Nat) : Nat → List Dirent → List FillCall
  | _, [] => []
  | n, de :: rest => (meetings n).callOf (entryCall buf de) :: callsFor meetings buf (n + 1) rest

section Filler

variable {conf : DirConfig} {plus : Bool} {meetings : Nat → Meeting} {buf n size : Nat}
  {dh : DirHandle} {before : List FillCall} {entries : List Dirent} {call : FillCall}

theorem names_callsFor :
    (callsFor meetings buf n entries).map FillCall.name = entries.map Dirent.dName := by
  induction entries generalizing n with
  | nil => rfl
  | cons de entries ih => exact congrArg (List.cons _) ih

theorem length_callsFor : (callsFor meetings buf n entries).length = entries.length := by
  have names := congrArg List.length (@names_callsFor meetings buf n entries)
  rwa [List.length_map, List.length_map] at names

theorem mem_callsFor (member : call ∈ callsFor meetings buf n entries) :
    ∃ m de, call = (meetings m).callOf (entryCall buf de) := by
  induction entries generalizing n with
  | nil => cases member
  | cons de entries ih =>
      rcases List.mem_cons.mp member with rfl | later
      · exact ⟨n, de, rfl⟩
      · exact ih later

/-- An entry that is refused leaves an error behind. -/
theorem offered_spec (ready : dh.Ready) :
    let acceptor := (libfuseFiller conf plus meetings).acceptor buf
    let calls := callsFor meetings buf before.length (acceptor.offered ⟨some dh, before⟩ entries)
    ∃ dh', ((acceptor.offered ⟨some dh, before⟩ entries).map (entryCall buf)).foldl
        (fun state call => (libfuseFiller conf plus meetings state call).2) ⟨some dh, before⟩ =
          ⟨some dh', before ++ calls⟩ ∧
      fillAll conf plus dh calls = some dh' ∧
      (acceptor.refuses ⟨some dh, before⟩ entries = true → dh'.error ≠ 0) := by
  intro acceptor
  induction entries generalizing dh before with
  | nil =>
      refine ⟨dh, ?_, rfl, fun refused => by cases refused⟩
      exact congrArg (FillerState.mk (some dh)) (List.append_nil before).symm
  | cons de entries ih =>
      obtain ⟨result, next, filling, ready', _, filled⟩ := @fillWith_spec dh
        ((meetings before.length).callOf (entryCall buf de)) ready
        (entryOf conf plus ((meetings before.length).callOf (entryCall buf de)))
      rw [← fill_eq] at filling
      have step : libfuseFiller conf plus meetings ⟨some dh, before⟩ (entryCall buf de) =
          (result, ⟨some next, before ++ [(meetings before.length).callOf (entryCall buf de)]⟩) := by
        simp only [libfuseFiller, Option.bind_some, filling]
      have verdict : acceptor ⟨some dh, before⟩ de =
          (decide (result = 0),
            ⟨some next, before ++ [(meetings before.length).callOf (entryCall buf de)]⟩) := by
        simp only [acceptor, Filler.acceptor, step]
      by_cases accepted : result = 0
      · obtain ⟨dh', fed, all, refused⟩ := @ih next
          (before ++ [(meetings before.length).callOf (entryCall buf de)]) ready'
        have taken : (acceptor ⟨some dh, before⟩ de).1 = true := by
          rw [verdict]
          exact decide_eq_true accepted
        rw [List.length_append, List.length_singleton] at fed all
        simp only [Acceptor.offered_of_accepted taken, Acceptor.refuses_of_accepted taken, verdict,
          callsFor, List.map_cons, List.foldl_cons, step, fillAll, filling, Option.bind_eq_bind,
          Option.bind_some]
        refine ⟨dh', ?_, all, refused⟩
        rw [fed, List.append_assoc, List.singleton_append]
      · have kept : ¬ (acceptor ⟨some dh, before⟩ de).1 = true := by
          rw [verdict]
          exact fun taken => accepted (of_decide_eq_true taken)
        simp only [Acceptor.offered_of_refused kept, Acceptor.refuses_of_refused kept, callsFor,
          List.map_cons, List.map_nil, List.foldl_cons, List.foldl_nil, step, fillAll, filling,
          Option.bind_eq_bind, Option.bind_some]
        refine ⟨next, rfl, rfl, fun _ => ?_⟩
        cases filled with
        | failed wrong => exact wrong
        | stored => exact absurd rfl accepted
        | written _ numbered => exact absurd rfl accepted
        | full _ numbered => exact absurd rfl numbered

end Filler

/-! ## What is kept and what is shown -/

section Delivered

variable {conf : DirConfig} {plus : Bool} {meetings : Nat → Meeting} {buf fillerAddress flags size : Nat}
  {dh : DirHandle} {directory : Directory} {s s' : ThreadLocal} {t : HostTrace} {path : Bytes}
  {offset reply : Int} {fi : Pointer FuseFileInfo} {w' : Listing FillerState}
  {before requests : List ReaddirRequest} {request : ReaddirRequest}
  {replies : List (Except Int Bytes)}

/-- The handler and the filler together are one filling of the directory. -/
theorem filled_by_handler (sound : dh.Sound)
    (run : Exec s (nosqlFSReaddir path buf fillerAddress offset fi flags) t s' reply)
    (follows : Follows (listingStep directory (libfuseFiller conf plus meetings))
      ⟨directory.entries, ⟨some (dh.emptied size), []⟩⟩ t w') :
    ∃ offered last, w'.state = ⟨some last, callsFor meetings buf 0 offered⟩ ∧
      fillAll conf plus (dh.emptied size) (callsFor meetings buf 0 offered) = some last ∧
      ((∃ e, directory.opened = .error e) ∧ reply ≠ 0 ∨
        (∃ dp, directory.opened = .ok dp) ∧ reply = 0 ∧
          (offered = directory.entries ∨ last.error ≠ 0)) := by
  have state := state_of_follows follows
  have ready : (dh.emptied size).Ready :=
    ⟨⟨sound.allocated, sound.bounded, Nat.zero_le _⟩, Nat.mod_lt _ (by decide), Nat.zero_le _⟩
  rcases exec_nosqlFSReaddir run follows with ⟨e, failed, made, nonzero, _⟩ |
    ⟨dp, _, _, opened, _, _, rfl⟩
  · have silent : fillerCalls t = [] := by
      rw [← fillerCalls_hostEvents, made]
      rfl
    rw [silent] at state
    exact ⟨[], dh.emptied size, state, rfl, .inl ⟨⟨e, failed⟩, nonzero⟩⟩
  · have delivered := (nosqlFSReaddir_delivers run follows).1 dp opened
    obtain ⟨last, fed, all, refused⟩ :=
      @offered_spec conf plus meetings buf (dh.emptied size) [] directory.entries ready
    rw [delivered.filled] at state
    refine ⟨_, last, state.trans fed, all, .inr ⟨⟨dp, opened⟩, rfl, ?_⟩⟩
    by_cases refusing : ((libfuseFiller conf plus meetings).acceptor buf).refuses
        ⟨some (dh.emptied size), []⟩ directory.entries = true
    · exact .inr (refused refusing)
    · exact .inl (Acceptor.offered_eq_self ((Bool.not_eq_true _).mp refusing))

/-- Libfuse keeps every entry that the stream has yielded or reports an error, whatever memory
is short.  An error of the stream itself is not among those that it hears of. -/
theorem refusal_never_kept (fits : ∀ other ∈ before, other.Fits)
    (served : DirHandle.serve conf opened before = some (replies, dh))
    (run : Exec s (nosqlFSReaddir path buf fillerAddress offset fi flags) t s' reply)
    (follows : Follows (listingStep directory (libfuseFiller conf plus meetings))
      ⟨directory.entries, ⟨some (dh.emptied size), []⟩⟩ t w') :
    ∃ err dh', dh.readdirFill conf size plus ⟨0, w'.state.calls, reply⟩ = some (err, dh') ∧
      (err ≠ 0 ∧ dh'.filled = false ∨ err = 0 ∧ dh'.filled = true ∧
        dh'.first.map Direntry.name = directory.entries.map Dirent.dName) := by
  have sound := (Kept.of_served fits served).toSound
  have ready : (dh.emptied size).Ready :=
    ⟨⟨sound.allocated, sound.bounded, Nat.zero_le _⟩, Nat.mod_lt _ (by decide), Nat.zero_le _⟩
  obtain ⟨offered, last, state, all, outcome⟩ := filled_by_handler sound run follows
  have start : Progress conf plus [] (dh.emptied size) :=
    .listed rfl (fun _ absent => absurd absent List.not_mem_nil) rfl rfl rfl
  obtain ⟨last', all', _, _, progress⟩ :=
    fillAll_spec (callsFor meetings buf 0 offered) ready start
  rw [all] at all'
  cases all'
  unfold readdirFill
  simp only [state, all, Option.bind_eq_bind, Option.bind_some]
  rw [if_neg (by decide)]
  by_cases wrong : (if reply ≠ 0 then reply else last.error) ≠ 0
  · rw [if_pos wrong]
    exact ⟨_, _, rfl, .inl ⟨wrong, rfl⟩⟩
  · rw [if_neg wrong]
    have right := not_not.mp wrong
    rcases outcome with ⟨_, nonzero⟩ | ⟨_, rfl, whole⟩
    · rw [if_pos nonzero] at right
      exact absurd right nonzero
    · rw [if_neg (by decide)] at right
      have same := whole.resolve_right (not_not.mpr right)
      refine ⟨_, last, rfl, .inr ⟨not_not.mp wrong, ?_⟩⟩
      cases progress with
      | failed error => exact absurd right error
      | listed _ _ listing first =>
          refine ⟨listing, ?_⟩
          rw [first, List.nil_append, List.map_map, ← same]
          exact names_callsFor
      | direct _ _ called numbered =>
          cases calls : callsFor meetings buf 0 offered with
          | nil =>
              rw [calls] at called
              exact absurd rfl called
          | cons call rest =>
              have member : call ∈ [] ++ callsFor meetings buf 0 offered :=
                calls ▸ List.mem_cons_self
              obtain ⟨_, _, rfl⟩ : ∃ m de, call = (meetings m).callOf (entryCall buf de) :=
                mem_callsFor (calls ▸ List.mem_cons_self)
              exact absurd rfl (numbered _ member)

/-- The name and the type of an entry in a reply; a `READDIRPLUS` does not tell the type. -/
def shownAs (plus : Bool) (de : Dirent) : Bytes × UInt32 :=
  (de.dName, if plus then 0 else .ofNat (de.dType.toNat % 16))

theorem type_of_mode : ∀ type < 256, ((type <<< 12) &&& sIfmt) >>> 12 = type % 16 := by
  decide +kernel

theorem shown_callsFor {n m : Nat} {entries : List Dirent} :
    (((callsFor meetings buf n entries).map (plainEntry conf plus)).zipIdx m).map
      (fun item => ((direntAt item).name, (direntAt item).type)) = entries.map (shownAs plus) := by
  induction entries generalizing n m with
  | nil => rfl
  | cons de entries ih =>
      rw [callsFor, List.map_cons, List.zipIdx_cons, List.map_cons, List.map_cons, ih]
      congr 1
      cases plus with
      | true =>
          have type : (0 &&& sIfmt) >>> 12 = 0 := by decide
          simp only [plainEntry, direntAt, direntOf, fillParam.unknownStat, Stat.zero, shownAs,
            Meeting.callOf, entryCall, ↓reduceIte, type]
          rfl
      | false =>
          have type := type_of_mode de.dType.toNat de.dType.toNat_lt
          cases use : conf.useIno <;>
          · simp only [plainEntry, direntAt, direntOf, fillStat, shownAs, use, Meeting.callOf,
              entryCall, Option.getD_some, Bool.false_eq_true, ↓reduceIte, type]

/-- A reader of the mount gets what the stream of the host yields until it ends or fails: every
entry once and in order, if memory is not short. -/
theorem directory_delivered {dp : Nat} (fits : ∀ other ∈ before, other.Fits)
    (served : DirHandle.serve conf opened before = some (replies, dh))
    (run : Exec s (nosqlFSReaddir path buf fillerAddress offset fi flags) t s' reply)
    (follows : Follows (listingStep directory (libfuseFiller conf request.plus meetings))
      ⟨directory.entries, ⟨some (dh.emptied request.size), []⟩⟩ t w')
    (opens : directory.opened = .ok dp) (memory : ∀ n, (meetings n).granted = true)
    (asks : request.answer = ⟨0, w'.state.calls, reply⟩)
    (few : directory.entries.length < 2 ^ 64)
    (here : ∀ other ∈ request :: requests, other.Fits)
    (granted : ∀ other ∈ request :: requests, other.fresh ≠ none)
    (ample : ∀ other ∈ request :: requests, recordMax ≤ other.size) :
    ∃ shown, readListing conf dh 0 (request :: requests) = some shown ∧
      shown.map (fun dirent => (dirent.name, dirent.type)) <+:
        directory.entries.map (shownAs request.plus) ∧
      (directory.entries.length ≤ requests.length + 1 →
        shown.map (fun dirent => (dirent.name, dirent.type)) =
          directory.entries.map (shownAs request.plus)) := by
  have kept := Kept.of_served fits served
  obtain ⟨offered, last, state, all, outcome⟩ := filled_by_handler kept.toSound run follows
  have cleanCall : ∀ call ∈ callsFor meetings buf 0 offered, call.Clean := by
    intro call member
    obtain ⟨m, de, rfl⟩ := mem_callsFor member
    exact ⟨Nat.zero_and _, rfl, memory m⟩
  rcases outcome with ⟨⟨e, fails⟩, _⟩ | ⟨_, rfl, whole⟩
  · rw [opens] at fails
    cases fails
  · have right : last.error = 0 := by
      rw [fillAll_clean cleanCall rfl] at all
      cases all
      rfl
    obtain rfl := whole.resolve_right (not_not.mpr right)
    have calls : request.answer.calls = callsFor meetings buf 0 directory.entries := by
      rw [asks, state]
    have clean : request.Clean := by
      refine ⟨by rw [asks], by rw [asks], ?_⟩
      rw [calls]
      exact cleanCall
    have number : request.answer.calls.length = directory.entries.length := by
      rw [calls, length_callsFor]
    obtain ⟨shown, reads, front, everything⟩ :=
      @readListing_whole conf request requests dh kept clean (by rwa [number]) here granted ample
    have names : ((numbered (request.answer.calls.map (plainEntry conf request.plus))).map
        direntAt).map (fun dirent => (dirent.name, dirent.type)) =
          directory.entries.map (shownAs request.plus) := by
      rw [List.map_map, calls]
      exact shown_callsFor
    refine ⟨shown, reads, ?_, fun enough => ?_⟩
    · rw [← names]
      exact front.map _
    · rw [← names, everything (by rwa [number])]

end Delivered

/-! ## A directory with two files -/

/-- There is memory for every entry. -/
def ampleMemory : Nat → Meeting := fun _ => ⟨fuseUnknownIno, .error .enoent, none, true⟩

/-- Both entries of a directory are kept. -/
def keptTrace : HostTrace :=
  listingMessages ++ ⟨.opendir (ascii "/d"), .ok 5⟩ :: (streamMessages ++
    handedOver ⟨7, 8, ascii "a"⟩ 0 ++ handedOver ⟨9, 8, ascii "b"⟩ 0 ++
    [⟨.readdir 5, .finish⟩, ⟨.closedir 5, .ok ()⟩])

/-- What the filler has kept of them. -/
def keptState : FillerState :=
  ((twoEntries none).entries.map (entryCall 32)).foldl
    (fun state call => (libfuseFiller plainConfig false ampleMemory state call).2)
    ⟨some (opened.emptied 4096), []⟩

theorem exec_kept : Exec startThread (nosqlFSReaddir (ascii "/d") 32 64 0 plainFile 0) keptTrace
    startThread 0 := by
  have replayed : run recording 3 (nosqlFSReaddir (ascii "/d") 32 64 0 plainFile 0) startThread
      keptTrace = some (0, startThread, []) := by rfl
  exact exec_of_recording replayed

theorem follows_kept :
    Follows (listingStep (twoEntries none) (libfuseFiller plainConfig false ampleMemory))
      ⟨(twoEntries none).entries, ⟨some (opened.emptied 4096), []⟩⟩ keptTrace ⟨[], keptState⟩ := by
  have made : hostEvents keptTrace = [⟨.opendir (ascii "/d"), .ok 5⟩,
      ⟨.readdir 5, .entry ⟨7, 8, ascii "a"⟩⟩,
      ⟨.filler 32 (ascii "a") (direntStat ⟨7, 8, ascii "a"⟩) 0 0, ⟨0, .keep⟩⟩,
      ⟨.readdir 5, .entry ⟨9, 8, ascii "b"⟩⟩,
      ⟨.filler 32 (ascii "b") (direntStat ⟨9, 8, ascii "b"⟩) 0 0, ⟨0, .keep⟩⟩,
      ⟨.readdir 5, .finish⟩, ⟨.closedir 5, .ok ()⟩] := by rfl
  rw [← follows_hostEvents_iff (listingStep_of_isLog _ _), made]
  exact .cons ⟨rfl, rfl⟩ (.cons ⟨rfl, rfl⟩ (.cons ⟨rfl, rfl⟩ (.cons ⟨rfl, rfl⟩
    (.cons ⟨rfl, rfl⟩ (.cons ⟨rfl, rfl⟩ (.cons rfl (.nil _)))))))

theorem refusal_never_kept_twoEntries : ∃ err dh,
    opened.readdirFill plainConfig 4096 false ⟨0, keptState.calls, 0⟩ = some (err, dh) ∧
      (err ≠ 0 ∧ dh.filled = false ∨ err = 0 ∧ dh.filled = true ∧
        dh.first.map Direntry.name = [ascii "a", ascii "b"]) :=
  @refusal_never_kept plainConfig false ampleMemory 32 64 0 4096 opened (twoEntries none) _ _ _ _ _ _ _
    ⟨[], keptState⟩ [] [] (fun _ absent => absurd absent List.not_mem_nil) rfl exec_kept follows_kept

/-- Ask for what has been kept. -/
def askKept : ReaddirRequest := ⟨4096, 0, false, ⟨0, keptState.calls, 0⟩, some fun _ => 0⟩

theorem fits_askKept : askKept.Fits where
  size := (by decide : 4096 ≤ 2 ^ 31)
  names := (by decide +kernel : ∀ call ∈ keptState.calls, call.name.length ≤ nameMax)

theorem directory_delivered_twoEntries : ∃ shown,
    readListing plainConfig opened 0 [askKept, askKept] = some shown ∧
      shown.map (fun dirent => (dirent.name, dirent.type)) = [(ascii "a", 8), (ascii "b", 8)] := by
  have both : ∀ other ∈ [askKept, askKept], other = askKept := fun other asked => by
    rcases List.mem_pair.mp asked with rfl | rfl <;> rfl
  obtain ⟨shown, reads, _, whole⟩ := @directory_delivered plainConfig ampleMemory 32 64 0 opened
    (twoEntries none) _ _ _ _ _ _ _ ⟨[], keptState⟩ [] [askKept] askKept [] 5
    (fun _ absent => absurd absent List.not_mem_nil) rfl exec_kept follows_kept rfl (fun _ => rfl)
    rfl (by decide) (fun other asked => both other asked ▸ fits_askKept)
    (fun other asked scarce => by rw [both other asked] at scarce; cases scarce)
    (fun other asked => by rw [both other asked]; decide)
  refine ⟨shown, reads, ?_⟩
  rw [whole (by decide)]
  decide

end Libfuse

end NosqlFS
