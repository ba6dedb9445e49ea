import NosqlFS.Libfuse.Filling

/-!
# Replies to the requests on an open directory

A list that has been filled stays until the directory is read from its start again.  A
reply shows the entries of the list behind the offset, as many as fit, or what the
filesystem has written itself.
-/

namespace NosqlFS

namespace Libfuse

open Text Paging

/-- The longest name of a directory entry. -/
def nameMax : Nat := 255

/-- The longest record of a directory entry. -/
def recordMax : Nat := nameMax + 160

def ShortNames (entries : List Direntry) : Prop := ∀ de ∈ entries, de.name.length ≤ nameMax

/-- The records of the entries behind a position. -/
def listRecords (plus : Bool) : Int → List Direntry → List DirRecord
  | _, [] => []
  | pos, de :: rest => listRecord plus de (pos + 1) :: listRecords plus (pos + 1) rest

/-- The part of a list that a reply shows. -/
def window (plus : Bool) (entries : List Direntry) (off : Int) (size : Nat) : List DirRecord :=
  page DirRecord.size size ((listRecords plus 0 entries).drop off.toNat)

section List

variable {plus : Bool} {de : Direntry} {pos off : Int} {entries : List Direntry}

theorem listRecord_size_le (short : de.name.length ≤ nameMax) :
    (listRecord plus de pos).size ≤ recordMax := by
  cases plus <;> exact DirRecord.size_le short

theorem listRecords_skip : listRecords plus (skipEntries off pos entries).1
    (skipEntries off pos entries).2 = (listRecords plus pos entries).drop (off - pos).toNat := by
  induction entries generalizing pos with
  | nil => exact List.drop_nil.symm
  | cons de entries ih =>
      unfold skipEntries
      split
      · next before =>
          have further : (off - pos).toNat = (off - (pos + 1)).toNat + 1 := by omega
          rw [ih, further]
          rfl
      · next reached =>
          have none : (off - pos).toNat = 0 := by omega
          rw [none]
          rfl

theorem skipEntries_short (short : ShortNames entries) :
    ShortNames (skipEntries off pos entries).2 := by
  induction entries generalizing pos with
  | nil => exact short
  | cons de entries ih =>
      unfold skipEntries
      split
      · exact ih fun other member => short other (List.mem_cons_of_mem _ member)
      · exact short

end List

namespace DirHandle

variable {dh dh' : DirHandle} {conf : DirConfig} {plus : Bool} {entries : List Direntry}
  {off pos : Int} {request : ReaddirRequest}

/-! ## From the list -/

theorem listEntries_spec (ready : dh.Ready) (room : dh.needlen ≤ dh.size)
    (few : dh.needlen + recordMax < 2 ^ 32) (short : ShortNames entries) :
    ∃ dh', dh.listEntries plus pos entries = some dh' ∧ dh'.Ready ∧ dh'.filled = dh.filled ∧
      dh'.first = dh.first ∧ dh'.shown = dh.shown ++ (page DirRecord.size (dh.needlen - dh.len)
        (listRecords plus pos entries)).flatMap DirRecord.bytes := by
  induction entries generalizing dh pos with
  | nil => exact ⟨dh, rfl, ready, rfl, rfl, (List.append_nil _).symm⟩
  | cons de entries ih =>
      have within := ready.within
      have bound := @listRecord_size_le plus de (pos + 1) (short de List.mem_cons_self)
      obtain ⟨contents, added, kept, longer⟩ :=
        @add_spec dh (listRecord plus de (pos + 1)) ready room
      have newlen : (dh.len + (listRecord plus de (pos + 1)).size) % 2 ^ 32 =
          dh.len + (listRecord plus de (pos + 1)).size := Nat.mod_eq_of_lt (by omega)
      simp only [listEntries, added, Option.bind_eq_bind, Option.bind_some, newlen]
      rw [listRecords, page]
      by_cases fits : dh.len + (listRecord plus de (pos + 1)).size ≤ dh.needlen
      · obtain ⟨ready', shown⟩ := longer fits
        obtain ⟨dh', rest, ready'', filled, first, shown'⟩ := ih ready' room few
          (fun other member => short other (List.mem_cons_of_mem _ member))
        rw [if_neg (Nat.not_lt.mpr fits), if_pos (by omega)]
        refine ⟨dh', rest, ready'', filled, first, ?_⟩
        rw [shown', shown, List.flatMap_cons, Nat.sub_add_eq, List.append_assoc]
      · have beyond := Nat.lt_of_not_le fits
        rw [if_pos beyond, if_neg (by omega), kept beyond]
        exact ⟨dh, rfl, ready, rfl, rfl, (List.append_nil _).symm⟩

theorem readdirFillFromList_spec (sound : dh.Sound) (few : dh.needlen + recordMax < 2 ^ 32)
    (short : ShortNames dh.first) (off : Int) (plus : Bool) (fresh : Option Memory) :
    ∃ err dh', dh.readdirFillFromList off plus fresh = some (err, dh') ∧ dh'.Sound ∧
      dh'.filled = dh.filled ∧ dh'.first = dh.first ∧
      (fresh = none ∧ err ≠ 0 ∨ err = 0 ∧
        dh'.shown = (window plus dh.first off dh.needlen).flatMap DirRecord.bytes) := by
  have ready : ({ dh with len := 0 } : DirHandle).Ready :=
    ⟨⟨sound.allocated, sound.bounded, Nat.zero_le _⟩, by simp only; omega, Nat.zero_le _⟩
  unfold readdirFillFromList
  rcases extendContents_spec ready fresh with ⟨scarce, refused⟩ |
    ⟨contents, size, found, room, _, enough⟩
  · simp only [refused, Option.bind_eq_bind, Option.bind_some]
    exact ⟨ENOMEM, _, rfl, ⟨sound.allocated, sound.bounded, Nat.zero_le _⟩, rfl, rfl,
      .inl ⟨scarce, by decide⟩⟩
  · simp only [found, Option.bind_eq_bind, Option.bind_some]
    obtain ⟨dh', listed, ready', filled, first, shown⟩ := @listEntries_spec
      { dh with len := 0, contents := contents, size := size } plus
      (skipEntries off 0 dh.first).2 (skipEntries off 0 dh.first).1 room enough few
      (skipEntries_short short)
    rw [if_neg (by decide), listed]
    refine ⟨0, dh', rfl, ready'.toSound, filled, first, .inr ⟨rfl, ?_⟩⟩
    rw [shown, shown_of_len_eq_zero rfl, listRecords_skip, Int.sub_zero]
    rfl

end DirHandle

/-! ## One request -/

/-- The size of a reply and the names are within the limits of the system. -/
structure ReaddirRequest.Fits (request : ReaddirRequest) : Prop where
  size : request.size ≤ 2 ^ 31
  names : ∀ call ∈ request.answer.calls, call.name.length ≤ nameMax

/-- The filesystem has handed over these entries without offsets. -/
structure ReaddirRequest.Lists (request : ReaddirRequest) (conf : DirConfig)
    (entries : List Direntry) : Prop where
  found : request.answer.pathError = 0
  succeeded : request.answer.result = 0
  plain : ∀ call ∈ request.answer.calls, call.off = 0
  entries : entries = request.answer.calls.map (DirHandle.plainEntry conf request.plus)

/-- The filesystem succeeds and all its calls of the filler are accepted. -/
structure ReaddirRequest.Clean (request : ReaddirRequest) : Prop where
  found : request.answer.pathError = 0
  succeeded : request.answer.result = 0
  calls : ∀ call ∈ request.answer.calls, call.Clean

namespace DirHandle

variable {dh dh' : DirHandle} {conf : DirConfig} {request : ReaddirRequest}

/-- The state of a handle between two requests. -/
structure Kept (dh : DirHandle) : Prop extends Sound dh where
  names : dh.filled = true → ShortNames dh.first

theorem kept_opened : opened.Kept := ⟨sound_opened, fun filled => by cases filled⟩

/-- The list stays, or it is the one that the filesystem has handed over. -/
structure Relists (conf : DirConfig) (dh : DirHandle) (request : ReaddirRequest)
    (dh' : DirHandle) : Prop where
  kept : dh.filled = true → request.off ≠ 0 → dh'.filled = true ∧ dh'.first = dh.first
  taken : dh.filled = false ∨ request.off = 0 → dh'.filled = true →
    request.Lists conf dh'.first

/-- The records that a reply shows. -/
inductive Shows (conf : DirConfig) (request : ReaddirRequest) (dh : DirHandle) :
    Except Int Bytes → Prop where
  | failed {err : Int} (wrong : err ≠ 0) : Shows conf request dh (.error err)
  | listed (listing : dh.filled = true) : Shows conf request dh
      (.ok ((window request.plus dh.first request.off request.size).flatMap DirRecord.bytes))
  | direct (records : List DirRecord) (closed : dh.filled = false)
      (called : request.answer.calls ≠ [])
      (numbered : ∀ call ∈ request.answer.calls, call.off ≠ 0)
      (completed : request.answer.calls.map (directRecord conf request.plus) =
        records.map Option.some) :
      Shows conf request dh
        (.ok ((packing DirRecord.size request.size records).flatMap DirRecord.bytes))

theorem readdirFill_spec (sound : dh.Sound) (fits : request.Fits) (empty : dh.filled = false) :
    ∃ err dh', dh.readdirFill conf request.size request.plus request.answer = some (err, dh') ∧
      dh'.Sound ∧ (err ≠ 0 ∧ dh'.filled = false ∨ err = 0 ∧ request.answer.pathError = 0 ∧
        request.answer.result = 0 ∧ dh'.needlen = request.size ∧ dh'.error = 0 ∧
        Progress conf request.plus request.answer.calls dh') := by
  have bound := fits.size
  have needed : request.size % 2 ^ 32 = request.size := Nat.mod_eq_of_lt (by omega)
  unfold readdirFill
  split
  · next wrong => exact ⟨_, dh, rfl, sound, .inl ⟨wrong, empty⟩⟩
  · next found =>
      have ready : (dh.emptied request.size).Ready :=
        ⟨⟨sound.allocated, sound.bounded, Nat.zero_le _⟩, Nat.mod_lt _ (by decide),
          Nat.zero_le _⟩
      have start : Progress conf request.plus [] (dh.emptied request.size) :=
        .listed rfl (fun _ absent => absurd absent List.not_mem_nil) rfl rfl rfl
      obtain ⟨last, filled, ready', needlen, progress⟩ :=
        fillAll_spec request.answer.calls ready start
      simp only [filled, Option.bind_eq_bind, Option.bind_some]
      by_cases wrong : (if request.answer.result ≠ 0 then request.answer.result else last.error) ≠ 0
      · rw [if_pos wrong]
        exact ⟨_, _, rfl, ⟨ready'.allocated, ready'.bounded, ready'.inside⟩, .inl ⟨wrong, rfl⟩⟩
      · rw [if_neg wrong]
        have right := not_not.mp wrong
        have result : request.answer.result = 0 := by
          by_contra failed
          rw [if_pos failed] at right
          exact failed right
        rw [if_neg (not_not.mpr result)] at right
        refine ⟨_, last, rfl, ready'.toSound, .inr ⟨not_not.mp wrong, not_not.mp found, result,
          needlen.trans needed, right, progress⟩⟩

/-- The answer from a directory that has been filled. -/
theorem replyFilled_spec (sound : dh.Sound) (fits : request.Fits) (filled : dh.filled = true)
    (short : ShortNames dh.first) :
    ∃ reply dh', dh.replyFilled request = some (reply, dh') ∧ dh'.Sound ∧ dh'.filled = true ∧
      dh'.first = dh.first ∧ Shows conf request dh' reply ∧
      (request.fresh ≠ none → ∀ err, reply ≠ .error err) := by
  have bound := fits.size
  have needed : request.size % 2 ^ 32 = request.size := Nat.mod_eq_of_lt (by omega)
  obtain ⟨err, dh', listed, sound', filled', first, shown⟩ := @readdirFillFromList_spec
    { dh with needlen := request.size } ⟨sound.allocated, sound.bounded, sound.inside⟩
    (by simp only [recordMax, nameMax]; omega) short request.off request.plus request.fresh
  have listing : dh'.filled = true := filled'.trans filled
  rw [replyFilled, if_pos filled, needed]
  simp only [listed, Option.bind_eq_bind, Option.bind_some]
  rcases shown with ⟨scarce, wrong⟩ | ⟨rfl, shown⟩
  · rw [if_pos wrong]
    exact ⟨_, dh', rfl, sound', listing, first, .failed wrong, fun granted => absurd scarce granted⟩
  · rw [if_neg (by decide)]
    have shows := @Shows.listed conf request dh' listing
    rw [first] at shows
    refine ⟨_, dh', rfl, sound', listing, first, ?_, fun _ err wrong => by cases wrong⟩
    rwa [shown]

theorem readdirFill_clean (clean : request.Clean) :
    ∃ dh', dh.readdirFill conf request.size request.plus request.answer = some (0, dh') := by
  have filled := @fillAll_clean (dh.emptied request.size) request.answer.calls conf request.plus
    clean.calls rfl
  unfold readdirFill
  rw [if_neg (not_not.mpr clean.found), filled]
  simp only [Option.bind_eq_bind, Option.bind_some]
  rw [if_neg (not_not.mpr clean.succeeded)]
  exact ⟨_, rfl⟩

/-- What every request does. -/
theorem fuseReaddirCommon_spec (kept : dh.Kept) (fits : request.Fits) :
    ∃ reply dh', dh.fuseReaddirCommon conf request = some (reply, dh') ∧ dh'.Kept ∧
      Relists conf dh request dh' ∧ Shows conf request dh' reply ∧
      (dh.filled = true ∧ request.off ≠ 0 ∨ request.Clean → request.fresh ≠ none →
        ∀ err, reply ≠ .error err) := by
  unfold fuseReaddirCommon
  by_cases filled : (dh.rewound request.off).filled = true
  · have later : request.off ≠ 0 := by
      intro start
      rw [rewound, if_pos start] at filled
      cases filled
    have same : dh.rewound request.off = dh := if_neg later
    simp only [same] at filled ⊢
    obtain ⟨reply, dh', replied, sound, filled', first, shows, granted⟩ :=
      @replyFilled_spec dh conf request kept.toSound fits filled (kept.names filled)
    rw [if_pos filled]
    refine ⟨reply, dh', replied, ⟨sound, fun _ => first ▸ kept.names filled⟩,
      ⟨fun _ _ => ⟨filled', first⟩, fun fresh _ => ?_⟩, shows, fun _ => granted⟩
    rcases fresh with empty | start
    · rw [filled] at empty
      cases empty
    · exact absurd start later
  · have empty : (dh.rewound request.off).filled = false := (Bool.not_eq_true _).mp filled
    have sound : (dh.rewound request.off).Sound := by
      unfold rewound
      split
      · exact ⟨kept.allocated, kept.bounded, kept.inside⟩
      · exact kept.toSound
    have stale : ¬ (dh.filled = true ∧ request.off ≠ 0) := by
      rintro ⟨filled', later⟩
      rw [rewound, if_neg later] at empty
      rw [filled'] at empty
      cases empty
    have relists : ∀ dh', (dh'.filled = true → request.Lists conf dh'.first) →
        Relists conf dh request dh' := fun dh' lists =>
      ⟨fun filled' later => absurd ⟨filled', later⟩ stale, fun _ listing => lists listing⟩
    rw [if_neg filled]
    obtain ⟨err, done, filling, sound', outcome⟩ :=
      @readdirFill_spec (dh.rewound request.off) conf request sound fits empty
    simp only [filling, Option.bind_eq_bind, Option.bind_some]
    rcases outcome with ⟨wrong, closed⟩ | ⟨rfl, found, result, needlen, error, progress⟩
    · have unclean : ¬ request.Clean := by
        intro clean
        obtain ⟨done', succeeds⟩ :=
          @readdirFill_clean (dh.rewound request.off) conf request clean
        rw [filling] at succeeds
        cases succeeds
        exact wrong rfl
      rw [if_pos wrong]
      refine ⟨_, done, rfl, ⟨sound', fun listing => ?_⟩, relists done fun listing => ?_,
        .failed wrong, fun given => ?_⟩
      · rw [closed] at listing
        cases listing
      · rw [closed] at listing
        cases listing
      · rcases given with filled' | clean
        · exact absurd filled' stale
        · exact absurd clean unclean
    · rw [if_neg (by decide)]
      cases progress with
      | failed wrong => exact absurd error wrong
      | listed _ plain listing first =>
          have short : ShortNames done.first := by
            intro de member
            rw [first] at member
            obtain ⟨call, called, rfl⟩ := List.mem_map.mp member
            exact fits.names call called
          obtain ⟨reply, dh', replied, sound'', filled', same, shows, granted⟩ :=
            @replyFilled_spec done conf request sound' fits listing short
          exact ⟨reply, dh', replied, ⟨sound'', fun _ => same ▸ short⟩,
            relists dh' fun _ => ⟨found, result, plain, same.trans first⟩, shows,
            fun _ => granted⟩
      | direct records _ called numbered closed _ completed _ shown =>
          have reply : done.replyFilled request = some (.ok done.shown, done) := by
            rw [replyFilled, if_neg (by rw [closed]; decide)]
          refine ⟨_, done, reply, ⟨sound', fun listing => ?_⟩, relists done fun listing => ?_, ?_,
            fun _ _ err wrong => by cases wrong⟩
          · rw [closed] at listing
            cases listing
          · rw [closed] at listing
            cases listing
          · rw [shown, needlen]
            exact .direct records closed called numbered completed

end DirHandle

end Libfuse

end NosqlFS
