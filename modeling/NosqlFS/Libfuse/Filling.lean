import NosqlFS.Libfuse.Directories

/-!
# What a request does to an open directory

No record is written outside the buffer.  A filesystem that succeeds has either handed
beyond all its entries without offsets, and they are all kept, or all with offsets, and
those that fit are in the buffer.  A reply is a sequence of whole records.
-/

namespace NosqlFS

namespace Libfuse

open Text Paging

namespace DirHandle

variable {dh : DirHandle} {record : DirRecord} {call : FillCall} {conf : DirConfig} {plus : Bool}

/-! ## The buffer -/

/-- The reply is inside the buffer. -/
structure Sound (dh : DirHandle) : Prop where
  allocated : dh.contents = none → dh.size = 0
  bounded : dh.size ≤ 0xffffffff
  inside : dh.len ≤ dh.size

/-- More records may be added to the reply. -/
structure Ready (dh : DirHandle) : Prop extends Sound dh where
  small : dh.needlen < 2 ^ 32
  within : dh.len ≤ dh.needlen

theorem sound_opened : opened.Sound := ⟨fun _ => rfl, Nat.zero_le _, Nat.le_refl 0⟩

theorem remaining_eq (ready : dh.Ready) : dh.remaining = dh.needlen - dh.len := by
  have within := ready.within
  have small := ready.small
  unfold remaining
  omega

theorem shown_of_len_eq_zero (none : dh.len = 0) : dh.shown = [] := by
  unfold shown
  cases dh.contents with
  | none => rfl
  | some memory => rw [none]; rfl

/-- A record is added to the reply, or it does not fit and nothing changes. -/
theorem add_spec (ready : dh.Ready) (room : dh.needlen ≤ dh.size) :
    ∃ contents, record.add dh.contents dh.size dh.len dh.remaining =
        some (record.size, contents) ∧
      (dh.needlen < dh.len + record.size → contents = dh.contents) ∧
      (dh.len + record.size ≤ dh.needlen →
        ({ dh with contents := contents, len := dh.len + record.size } : DirHandle).Ready ∧
        ({ dh with contents := contents, len := dh.len + record.size } : DirHandle).shown =
          dh.shown ++ record.bytes) := by
  have within := ready.within
  have positive := record.size_pos
  rw [remaining_eq ready]
  cases held : dh.contents with
  | none =>
      have empty := ready.allocated held
      exact ⟨none, rfl, fun _ => rfl, fun fits => by omega⟩
  | some memory =>
      unfold DirRecord.add
      by_cases fits : dh.len + record.size ≤ dh.needlen
      · simp only [if_neg (show ¬ dh.needlen - dh.len < record.size by omega),
          if_neg (show ¬ dh.size < dh.len + record.size by omega)]
        refine ⟨_, rfl, fun beyond => by omega, fun _ => ⟨⟨⟨?_, ready.bounded, ?_⟩, ready.small, fits⟩,
          ?_⟩⟩
        · intro absent
          cases absent
        · exact fits.trans room
        · have front : (memory.write dh.len record.bytes).bytesAt 0 dh.len =
              memory.bytesAt 0 dh.len := by
            have behind := @Memory.bytesAt_write_behind memory 0 record.bytes dh.len
            rwa [Nat.zero_add] at behind
          have back : (memory.write dh.len record.bytes).bytesAt (0 + dh.len) record.size =
              record.bytes := by
            rw [Nat.zero_add, ← DirRecord.length_bytes]
            exact Memory.bytesAt_write
          have before : dh.shown = memory.bytesAt 0 dh.len := by
            unfold shown
            rw [held]
          rw [before]
          unfold shown
          simp only
          rw [Memory.bytesAt_add, front, back]
      · simp only [if_pos (show dh.needlen - dh.len < record.size by omega)]
        exact ⟨_, rfl, fun _ => rfl, fun fits' => absurd fits' fits⟩

/-- The buffer is enlarged and keeps the reply, unless there is no memory. -/
theorem extendContents_spec (ready : dh.Ready) (fresh : Option Memory) :
    fresh = none ∧ dh.extendContents dh.needlen fresh = some (false, { dh with error := ENOMEM }) ∨
    ∃ contents size, dh.extendContents dh.needlen fresh =
        some (true, { dh with contents := contents, size := size }) ∧
      ({ dh with contents := contents, size := size } : DirHandle).Ready ∧
      ({ dh with contents := contents, size := size } : DirHandle).shown = dh.shown ∧
      dh.needlen ≤ size := by
  have bounded := ready.bounded
  have small := ready.small
  unfold extendContents
  split
  · next short =>
      have begin_ : 2 ^ 31 ≤ (if dh.size = 0 then 1024 else dh.size) * 2 ^ 32 ∧
          (if dh.size = 0 then 1024 else dh.size) ≤ 0xffffffff := by
        split <;> omega
      obtain ⟨larger, found, enough, grown, most⟩ := PathBuffer.enlarge_spec
        (show dh.needlen ≤ 0xffffffff by omega) 32 (if dh.size = 0 then 1024 else dh.size)
        begin_.1 begin_.2
      simp only [found, Option.bind_eq_bind, Option.bind_some]
      cases fresh with
      | none => exact .inl ⟨rfl, rfl⟩
      | some fresh =>
          refine .inr ⟨_, _, rfl, ⟨⟨fun absent => ?_, most, ?_⟩, small, ready.within⟩, ?_, enough⟩
          · cases absent
          · exact ready.within.trans enough
          · have inside := ready.inside
            unfold shown
            simp only
            cases held : dh.contents with
            | none =>
                have none := ready.allocated held
                have empty : dh.len = 0 := by omega
                rw [empty]
                rfl
            | some memory =>
                refine List.map_congr_left fun i member => ?_
                have below := List.mem_range.mp member
                simp only [PathBuffer.extend, Option.getD_some]
                rw [if_pos (by omega)]
  · next room =>
      exact .inr ⟨dh.contents, dh.size, rfl, ready, rfl, Nat.le_of_not_lt room⟩

/-! ## The filler -/

/-- What one call of the filler does: it fails, keeps the entry, writes it or has no room
for it. -/
inductive Filled (dh : DirHandle) (call : FillCall) (entry : Except Errno (DirRecord × Stat)) :
    Int → DirHandle → Prop where
  | failed {dh' : DirHandle} (wrong : dh'.error ≠ 0) : Filled dh call entry 1 dh'
  | stored {record : DirRecord} {stat : Stat} (completed : entry = .ok (record, stat))
      (plain : call.off = 0) (listing : dh.filled = true) (granted : call.granted = true) :
      Filled dh call entry 0 { dh with first := dh.first ++ [⟨stat, call.name⟩] }
  | written {record : DirRecord} {stat : Stat} {dh' : DirHandle}
      (completed : entry = .ok (record, stat)) (numbered : call.off ≠ 0) (bare : dh.first = [])
      (still : dh'.first = []) (direct : dh'.filled = false) (error : dh'.error = dh.error)
      (fits : dh.len + record.size ≤ dh.needlen) (len : dh'.len = dh.len + record.size)
      (shown : dh'.shown = dh.shown ++ record.bytes) : Filled dh call entry 0 dh'
  | full {record : DirRecord} {stat : Stat} {dh' : DirHandle}
      (completed : entry = .ok (record, stat)) (numbered : call.off ≠ 0) (bare : dh.first = [])
      (still : dh'.first = []) (direct : dh'.filled = false) (error : dh'.error = dh.error)
      (beyond : dh.needlen < dh.len + record.size) (len : dh'.len = dh.len)
      (shown : dh'.shown = dh.shown) : Filled dh call entry 1 dh'

theorem Ready.withError (ready : dh.Ready) (error : Int) :
    ({ dh with error := error } : DirHandle).Ready :=
  ⟨⟨ready.allocated, ready.bounded, ready.inside⟩, ready.small, ready.within⟩

theorem storeEntry_spec (ready : dh.Ready) (record : DirRecord) (stat : Stat) :
    ∃ result dh', dh.storeEntry call record stat = some (result, dh') ∧ dh'.Ready ∧
      dh'.needlen = dh.needlen ∧ Filled dh call (.ok (record, stat)) result dh' := by
  unfold storeEntry
  split
  · next numbered =>
      split
      · exact ⟨1, _, rfl, ready.withError _, rfl, .failed (by decide : EIO ≠ 0)⟩
      · next listed =>
          have bare : dh.first = [] := not_not.mp listed
          rcases extendContents_spec ready call.fresh with ⟨_, short⟩ | ⟨contents, size, found,
            room, same, enough⟩
          · simp only [short, Option.bind_eq_bind, Option.bind_some]
            exact ⟨1, _, rfl, ready.withError _, rfl, .failed (by decide : ENOMEM ≠ 0)⟩
          · simp only [found, Option.bind_eq_bind, Option.bind_some]
            set direct : DirHandle :=
              { dh with contents := contents, size := size, filled := false }
            have ready' : direct.Ready :=
              ⟨⟨room.allocated, room.bounded, room.inside⟩, room.small, room.within⟩
            obtain ⟨after, added, kept, longer⟩ := @add_spec direct record ready' enough
            change record.add contents size dh.len direct.remaining = _ at added
            simp only [added, Option.bind_some]
            by_cases fits : dh.len + record.size ≤ dh.needlen
            · obtain ⟨ready'', shown⟩ := longer fits
              rw [if_neg (by decide), if_neg (Nat.not_lt.mpr fits)]
              refine ⟨0, _, rfl, ready'', rfl, .written rfl numbered bare bare rfl rfl fits rfl ?_⟩
              exact shown.trans (congrArg (· ++ record.bytes) same)
            · have beyond := Nat.lt_of_not_le fits
              rw [if_neg (by decide), if_pos beyond]
              refine ⟨1, _, rfl, ?_, rfl, .full rfl numbered bare bare rfl rfl beyond rfl ?_⟩
              · rw [kept beyond]
                exact ready'
              · rw [kept beyond]
                exact same
  · next plain =>
      split
      · exact ⟨1, _, rfl, ready.withError _, rfl, .failed (by decide : EIO ≠ 0)⟩
      · next listing =>
          split
          · exact ⟨1, _, rfl, ready.withError _, rfl, .failed (by decide : ENOMEM ≠ 0)⟩
          · next granted =>
              refine ⟨0, _, rfl, ⟨⟨ready.allocated, ready.bounded, ready.inside⟩, ready.small,
                ready.within⟩, rfl, .stored rfl (not_not.mp plain) ?_ ?_⟩
              · exact (Bool.not_eq_false _).mp listing
              · exact (Bool.not_eq_false _).mp granted

theorem fillWith_spec (ready : dh.Ready) (entry : Except Errno (DirRecord × Stat)) :
    ∃ result dh', dh.fillWith call entry = some (result, dh') ∧ dh'.Ready ∧
      dh'.needlen = dh.needlen ∧ Filled dh call entry result dh' := by
  unfold fillWith
  split
  · exact ⟨1, _, rfl, ready.withError _, rfl, .failed (by decide : EIO ≠ 0)⟩
  · cases entry with
    | error e =>
        have positive := e.positive
        exact ⟨1, _, rfl, ready.withError _, rfl, .failed (show -e.code ≠ 0 by omega)⟩
    | ok pair => exact storeEntry_spec ready pair.1 pair.2

/-- An error of an earlier call is not forgotten. -/
theorem Filled.error_ne_zero {entry : Except Errno (DirRecord × Stat)} {result : Int}
    {dh' : DirHandle} (filled : Filled dh call entry result dh') (wrong : dh.error ≠ 0) :
    dh'.error ≠ 0 := by
  cases filled with
  | failed wrong => exact wrong
  | stored => exact wrong
  | written _ _ _ _ _ error => rwa [error]
  | full _ _ _ _ _ error => rwa [error]

/-! ## Filling a directory -/

/-- The entry that a filler makes of a call. -/
def entryOf (conf : DirConfig) (plus : Bool) (call : FillCall) :
    Except Errno (DirRecord × Stat) :=
  if plus then (fillParam conf call).map fun e =>
    (fuseAddDirentryPlus call.name e call.off, e.attr)
  else .ok (fuseAddDirentry call.name (fillStat conf call) call.off, fillStat conf call)

theorem fill_eq : fill conf plus dh call = dh.fillWith call (entryOf conf plus call) := by
  cases plus <;> rfl

/-- The record that a filler writes for a call with an offset. -/
def directRecord (conf : DirConfig) (plus : Bool) (call : FillCall) : Option DirRecord :=
  (entryOf conf plus call).toOption.map Prod.fst

/-- The entry that a filler keeps for a call without an offset. -/
def plainEntry (conf : DirConfig) (plus : Bool) (call : FillCall) : Direntry :=
  ⟨if plus then fillParam.unknownStat conf call else fillStat conf call, call.name⟩

theorem fillParam_plain (plain : call.off = 0) :
    fillParam conf call = .ok ⟨0, 0, fillParam.unknownStat conf call, (0, 0), (0, 0)⟩ := by
  unfold fillParam
  cases call.statp with
  | none => rfl
  | some statp => exact if_neg fun given => given.1 plain

theorem plainEntry_eq {stat : Stat} (completed : entryOf conf plus call = .ok (record, stat))
    (plain : call.off = 0) : (⟨stat, call.name⟩ : Direntry) = plainEntry conf plus call := by
  cases plus with
  | false =>
      cases completed
      rfl
  | true =>
      rw [entryOf, if_pos rfl, fillParam_plain plain] at completed
      cases completed
      rfl

/-- How far a filesystem has come with some calls of the filler. -/
inductive Progress (conf : DirConfig) (plus : Bool) (calls : List FillCall) (dh : DirHandle) :
    Prop where
  | failed (wrong : dh.error ≠ 0)
  | listed (error : dh.error = 0) (plain : ∀ call ∈ calls, call.off = 0)
      (listing : dh.filled = true) (first : dh.first = calls.map (plainEntry conf plus))
      (len : dh.len = 0)
  | direct (records : List DirRecord) (error : dh.error = 0) (called : calls ≠ [])
      (numbered : ∀ call ∈ calls, call.off ≠ 0) (direct : dh.filled = false)
      (bare : dh.first = [])
      (completed : calls.map (directRecord conf plus) = records.map Option.some)
      (len : dh.len = load DirRecord.size (packing DirRecord.size dh.needlen records))
      (shown : dh.shown = (packing DirRecord.size dh.needlen records).flatMap DirRecord.bytes)

theorem forall_mem_concat {α : Type} {p : α → Prop} {items : List α} {item : α}
    (all : ∀ other ∈ items, p other) (last : p item) : ∀ other ∈ items ++ [item], p other := by
  intro other member
  rcases List.mem_append.mp member with front | back
  · exact all other front
  · rw [List.mem_singleton.mp back]
    exact last

/-- One more call. -/
theorem Progress.step {calls : List FillCall} {result : Int} {dh' : DirHandle}
    (progress : Progress conf plus calls dh)
    (filled : Filled dh call (entryOf conf plus call) result dh')
    (needlen : dh'.needlen = dh.needlen) : Progress conf plus (calls ++ [call]) dh' := by
  cases progress with
  | failed wrong => exact .failed (filled.error_ne_zero wrong)
  | listed error plain listing first len =>
      cases filled with
      | failed wrong => exact .failed wrong
      | stored completed plain' =>
          refine .listed error (forall_mem_concat plain plain') listing ?_ len
          rw [List.map_append, ← first, List.map_singleton, ← plainEntry_eq completed plain']
      | @written record stat _ completed numbered bare still direct error' fits len' shown =>
          have none : calls = [] := by rwa [first, List.map_eq_nil_iff] at bare
          subst none
          have packed : packing DirRecord.size dh'.needlen [record] = [record] := by
            rw [packing, if_pos (by omega), packing]
          refine .direct [record] (error'.trans error) (List.cons_ne_nil _ _)
            (forall_mem_concat (fun _ absent => absurd absent List.not_mem_nil) numbered) direct
            still ?_ ?_ ?_
          · simp only [List.nil_append, List.map_cons, List.map_nil, directRecord, completed]
            rfl
          · rw [packed, len', len, load_cons, load_nil, Nat.zero_add, Nat.add_zero]
          · rw [packed, shown, shown_of_len_eq_zero len]
            exact (List.append_nil _).symm
      | @full record stat _ completed numbered bare still direct error' beyond len' shown =>
          have none : calls = [] := by rwa [first, List.map_eq_nil_iff] at bare
          subst none
          have packed : packing DirRecord.size dh'.needlen [record] = [] := by
            rw [packing, if_neg (by omega), packing]
          refine .direct [record] (error'.trans error) (List.cons_ne_nil _ _)
            (forall_mem_concat (fun _ absent => absurd absent List.not_mem_nil) numbered) direct
            still ?_ ?_ ?_
          · simp only [List.nil_append, List.map_cons, List.map_nil, directRecord, completed]
            rfl
          · rw [packed, len', len]
            rfl
          · rw [packed, shown, shown_of_len_eq_zero len]
            rfl
  | direct records error called numbered direct bare completed len shown =>
      cases filled with
      | failed wrong => exact .failed wrong
      | stored _ _ listing =>
          rw [direct] at listing
          cases listing
      | @written record stat _ completed' numbered' _ still direct' error' fits len' shown' =>
          have packed : packing DirRecord.size dh'.needlen (records ++ [record]) =
              packing DirRecord.size dh'.needlen records ++ [record] := by
            rw [packing_concat, if_pos (by rw [needlen, ← len]; exact fits)]
          refine .direct (records ++ [record]) (error'.trans error)
            (List.append_ne_nil_of_right_ne_nil _ (List.cons_ne_nil _ _))
            (forall_mem_concat numbered numbered') direct' still ?_ ?_ ?_
          · rw [List.map_append, List.map_append, completed, List.map_singleton,
              List.map_singleton, directRecord, completed']
            rfl
          · rw [packed, len', len, load_append, needlen]
            rfl
          · rw [packed, shown', shown, List.flatMap_append, needlen]
            exact congrArg (_ ++ ·) (List.append_nil _).symm
      | @full record stat _ completed' numbered' _ still direct' error' beyond len' shown' =>
          have packed : packing DirRecord.size dh'.needlen (records ++ [record]) =
              packing DirRecord.size dh'.needlen records := by
            rw [packing_concat, if_neg (by rw [needlen, ← len]; exact Nat.not_le_of_lt beyond)]
          refine .direct (records ++ [record]) (error'.trans error)
            (List.append_ne_nil_of_right_ne_nil _ (List.cons_ne_nil _ _))
            (forall_mem_concat numbered numbered') direct' still ?_ ?_ ?_
          · rw [List.map_append, List.map_append, completed, List.map_singleton,
              List.map_singleton, directRecord, completed']
            rfl
          · rw [packed, len', len, needlen]
          · rw [packed, shown', shown, needlen]

/-- All calls, whatever the filesystem makes of their results. -/
theorem fillAll_spec {before : List FillCall} (calls : List FillCall) (ready : dh.Ready)
    (progress : Progress conf plus before dh) :
    ∃ dh', fillAll conf plus dh calls = some dh' ∧ dh'.Ready ∧ dh'.needlen = dh.needlen ∧
      Progress conf plus (before ++ calls) dh' := by
  induction calls generalizing dh before with
  | nil => exact ⟨dh, rfl, ready, rfl, by rwa [List.append_nil]⟩
  | cons call calls ih =>
      obtain ⟨result, next, found, ready', needlen, filled⟩ :=
        @fillWith_spec dh call ready (entryOf conf plus call)
      obtain ⟨dh', rest, ready'', needlen', progress'⟩ := ih ready' (progress.step filled needlen)
      refine ⟨dh', ?_, ready'', needlen'.trans needlen, ?_⟩
      · rw [fillAll, fill_eq, found]
        exact rest
      · rwa [List.append_assoc, List.singleton_append] at progress'

/-! ## A filesystem that makes no mistakes -/

end DirHandle

/-- A call that the filler accepts from a filesystem without offsets. -/
structure FillCall.Clean (call : FillCall) : Prop where
  known : call.flags &&& (2 ^ 32 - 1 - fuseFillDirPlus) = 0
  plain : call.off = 0
  granted : call.granted = true

namespace DirHandle

variable {dh : DirHandle} {call : FillCall} {calls : List FillCall} {conf : DirConfig}
  {plus : Bool}

theorem fill_clean (clean : call.Clean) (listing : dh.filled = true) :
    fill conf plus dh call =
      some (0, { dh with first := dh.first ++ [plainEntry conf plus call] }) := by
  have completed : ∃ record stat, entryOf conf plus call = .ok (record, stat) := by
    cases plus with
    | false => exact ⟨_, _, rfl⟩
    | true =>
        rw [entryOf, if_pos rfl, fillParam_plain clean.plain]
        exact ⟨_, _, rfl⟩
  obtain ⟨record, stat, completed⟩ := completed
  rw [fill_eq, completed, ← plainEntry_eq completed clean.plain]
  unfold fillWith
  rw [if_neg (not_not.mpr clean.known)]
  simp only [storeEntry]
  rw [if_neg (not_not.mpr clean.plain), if_neg (by rw [listing]; decide),
    if_neg (by rw [clean.granted]; decide)]

theorem fillAll_clean (clean : ∀ call ∈ calls, call.Clean) (listing : dh.filled = true) :
    fillAll conf plus dh calls =
      some { dh with first := dh.first ++ calls.map (plainEntry conf plus) } := by
  induction calls generalizing dh with
  | nil =>
      rw [fillAll, List.map_nil, List.append_nil]
  | cons call calls ih =>
      rw [fillAll, fill_clean (clean call List.mem_cons_self) listing]
      simp only [Option.bind_eq_bind, Option.bind_some]
      have later := @ih { dh with first := dh.first ++ [plainEntry conf plus call] }
        (fun other member => clean other (List.mem_cons_of_mem _ member)) listing
      simp only [List.append_assoc, List.singleton_append] at later
      exact later

end DirHandle

end Libfuse

end NosqlFS
