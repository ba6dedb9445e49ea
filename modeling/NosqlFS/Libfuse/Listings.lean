import NosqlFS.Libfuse.Replies

/-!
# Reading a directory in pieces

The kernel reads a directory by several requests, each from the offset of the last entry
that it has got.  All replies are whole records; as long as the kernel does not go back to
the start they come from one list, and together they show that list once and in order.
-/

namespace NosqlFS

namespace Libfuse

open Text Paging

variable {conf : DirConfig} {plus : Bool} {request : ReaddirRequest}
  {requests before : List ReaddirRequest} {entries : List Direntry}

/-! ## What a reply reads as -/

theorem length_records (records : List DirRecord) :
    (records.flatMap DirRecord.bytes).length = load DirRecord.size records := by
  induction records with
  | nil => rfl
  | cons record records ih =>
      rw [List.flatMap_cons, List.length_append, ih, DirRecord.length_bytes, load_cons]

theorem eight_dvd_load (records : List DirRecord) : 8 ∣ load DirRecord.size records := by
  induction records with
  | nil => exact Nat.dvd_zero 8
  | cons record records ih => exact Nat.dvd_add record.eight_dvd_size ih

/-- A record of the kind that was asked for. -/
def OfKind (plus : Bool) (record : DirRecord) : Prop :=
  record.entry.isSome = plus ∧ record.dirent.name.length ≤ nameMax

theorem readAll_records {records : List DirRecord} (kind : ∀ record ∈ records, OfKind plus record) :
    (recordReader plus).readAll (records.flatMap DirRecord.bytes) = some records := by
  refine Reader.readAll_flatMap fun record member rest => ?_
  obtain ⟨rfl, short⟩ := kind record member
  exact readRecord_bytes (short.trans_lt (by decide)) rest

theorem listRecord_ofKind {de : Direntry} {pos : Int} (short : de.name.length ≤ nameMax) :
    OfKind plus (listRecord plus de pos) := by
  cases plus <;> exact ⟨rfl, short⟩

theorem listRecords_eq (plus : Bool) (n : Nat) (entries : List Direntry) :
    listRecords plus n entries =
      (entries.zipIdx (n + 1)).map fun item => listRecord plus item.1 item.2 := by
  induction entries generalizing n with
  | nil => rfl
  | cons de entries ih =>
      rw [listRecords, List.zipIdx_cons, List.map_cons]
      exact congrArg _ (ih (n + 1))

/-- The entries of a list with their offsets. -/
def numbered (entries : List Direntry) : List (Direntry × Nat) := entries.zipIdx 1

/-- The weights and the room of a reply. -/
def sheetOf (request : ReaddirRequest) : (Direntry × Nat → Nat) × Nat :=
  (fun item => (listRecord request.plus item.1 item.2).size, request.size)

theorem window_eq (off : Int) : window request.plus entries off request.size =
    (page (sheetOf request).1 (sheetOf request).2 ((numbered entries).drop off.toNat)).map
      fun item => listRecord request.plus item.1 item.2 := by
  have whole := listRecords_eq request.plus 0 entries
  rw [window]
  refine Eq.trans ?_ (page_map _ DirRecord.size)
  rw [List.map_drop]
  exact congrArg (fun records => page DirRecord.size request.size (records.drop off.toNat)) whole

theorem window_ofKind (short : ShortNames entries) (off : Int) :
    ∀ record ∈ window request.plus entries off request.size, OfKind request.plus record := by
  intro record member
  rw [window_eq] at member
  obtain ⟨item, shown, rfl⟩ := List.mem_map.mp member
  have inside := List.mem_of_mem_drop (page_initial.subset shown)
  exact listRecord_ofKind (short _ (List.fst_mem_of_mem_zipIdx inside))

theorem directRecord_ofKind {call : FillCall} {record : DirRecord}
    (short : call.name.length ≤ nameMax)
    (completed : DirHandle.directRecord conf plus call = some record) : OfKind plus record := by
  cases plus with
  | false =>
      cases completed
      exact ⟨rfl, short⟩
  | true =>
      simp only [DirHandle.directRecord, DirHandle.entryOf, ↓reduceIte] at completed
      cases param : fillParam conf call with
      | error e =>
          rw [param] at completed
          cases completed
      | ok e =>
          rw [param] at completed
          cases completed
          exact ⟨rfl, short⟩

/-- A reply is an error or a sequence of whole records that has the size at most. -/
def Legible (request : ReaddirRequest) : Except Int Bytes → Prop
  | .error err => err ≠ 0
  | .ok bytes => bytes.length ≤ request.size ∧ 8 ∣ bytes.length ∧
      ∃ records, (recordReader request.plus).readAll bytes = some records ∧
        bytes = records.flatMap DirRecord.bytes

theorem legible_records {records : List DirRecord}
    (kind : ∀ record ∈ records, OfKind request.plus record)
    (fits : load DirRecord.size records ≤ request.size) :
    Legible request (.ok (records.flatMap DirRecord.bytes)) := by
  refine ⟨?_, ?_, records, readAll_records kind, rfl⟩
  · rw [length_records]
    exact fits
  · rw [length_records]
    exact eight_dvd_load records

namespace DirHandle

variable {dh dh' : DirHandle} {replies : List (Except Int Bytes)} {reply : Except Int Bytes}

theorem packing_ofKind {records : List DirRecord} (fits : request.Fits)
    (completed : request.answer.calls.map (directRecord conf request.plus) =
      records.map Option.some) :
    ∀ record ∈ packing DirRecord.size request.size records, OfKind request.plus record := by
  intro record member
  have inside := List.mem_map_of_mem (f := Option.some) (packing_sublist.subset member)
  rw [← completed] at inside
  obtain ⟨call, called, same⟩ := List.mem_map.mp inside
  exact directRecord_ofKind (fits.names call called) same

theorem Shows.legible (shows : Shows conf request dh reply) (kept : dh.Kept)
    (fits : request.Fits) : Legible request reply := by
  cases shows with
  | failed wrong => exact wrong
  | listed listing =>
      exact legible_records (window_ofKind (kept.names listing) _) load_page_le
  | direct records _ _ _ completed =>
      exact legible_records (packing_ofKind fits completed) load_packing_le

/-! ## Runs -/

/-- The requests on a handle, one after the other; their replies and the handle at last. -/
def serve (conf : DirConfig) : DirHandle → List ReaddirRequest →
    Option (List (Except Int Bytes) × DirHandle)
  | dh, [] => some ([], dh)
  | dh, request :: requests => do
      let (reply, next) ← dh.fuseReaddirCommon conf request
      let (replies, last) ← serve conf next requests
      return (reply :: replies, last)

theorem serve_spec (kept : dh.Kept) (fits : ∀ request ∈ requests, request.Fits) :
    ∃ replies dh', serve conf dh requests = some (replies, dh') ∧ dh'.Kept ∧
      List.Forall₂ Legible requests replies := by
  induction requests generalizing dh with
  | nil => exact ⟨[], dh, rfl, kept, .nil⟩
  | cons request requests ih =>
      have here := fits request List.mem_cons_self
      obtain ⟨reply, next, served, kept', _, shows, _⟩ :=
        @fuseReaddirCommon_spec dh conf request kept here
      obtain ⟨replies, dh', rest, kept'', legible⟩ :=
        ih kept' fun other member => fits other (List.mem_cons_of_mem _ member)
      refine ⟨reply :: replies, dh', ?_, kept'', .cons (shows.legible kept' here) legible⟩
      simp only [serve, served, Option.bind_eq_bind, Option.bind_some, rest]
      rfl

/-- The list of a handle is the one that it began with, or the one that the filesystem has
handed over last. -/
theorem serve_list (kept : dh.Kept) (fits : ∀ request ∈ requests, request.Fits)
    (served : serve conf dh requests = some (replies, dh')) (listing : dh'.filled = true) :
    (dh.filled = true ∧ dh'.first = dh.first ∧ ∀ request ∈ requests, request.off ≠ 0) ∨
    ∃ earlier filling later, requests = earlier ++ filling :: later ∧
      filling.Lists conf dh'.first ∧ ∀ request ∈ later, request.off ≠ 0 := by
  induction requests generalizing dh replies with
  | nil =>
      cases served
      exact .inl ⟨listing, rfl, fun _ absent => absurd absent List.not_mem_nil⟩
  | cons request requests ih =>
      obtain ⟨reply, next, found, kept', relists, _⟩ :=
        @fuseReaddirCommon_spec dh conf request kept (fits request List.mem_cons_self)
      simp only [serve, found, Option.bind_eq_bind, Option.bind_some,
        Option.bind_eq_some_iff] at served
      obtain ⟨⟨rest, last⟩, later, same⟩ := served
      cases same
      rcases ih kept' (fun other member => fits other (List.mem_cons_of_mem _ member)) later with
        ⟨filled, first, seeks⟩ | ⟨earlier, filling, tail, rfl, lists, seeks⟩
      · by_cases stays : dh.filled = true ∧ request.off ≠ 0
        · obtain ⟨_, same⟩ := relists.kept stays.1 stays.2
          refine .inl ⟨stays.1, first.trans same, fun other member => ?_⟩
          rcases List.mem_cons.mp member with rfl | inside
          · exact stays.2
          · exact seeks other inside
        · refine .inr ⟨[], request, requests, rfl, ?_, seeks⟩
          rw [first]
          refine relists.taken ?_ filled
          by_cases old : dh.filled = true
          · exact .inr (not_not.mp fun moved => stays ⟨old, moved⟩)
          · exact .inl ((Bool.not_eq_true _).mp old)
      · exact .inr ⟨request :: earlier, filling, tail, rfl, lists, seeks⟩

/-! ## A whole listing -/

/-- What the kernel gets that goes on behind the last entry of each reply, until a reply is
empty. -/
def readListing (conf : DirConfig) : DirHandle → Nat → List ReaddirRequest →
    Option (List FuseDirent)
  | _, _, [] => some []
  | dh, off, request :: requests => do
      let (reply, next) ← dh.fuseReaddirCommon conf { request with off := off }
      match reply with
      | .error _ => none
      | .ok bytes => do
          let records ← (recordReader request.plus).readAll bytes
          match records.getLast? with
          | none => return []
          | some last => do
              let more ← readListing conf next last.dirent.off.toNat requests
              return records.map DirRecord.dirent ++ more

/-- The record of an entry without the attributes in front of it. -/
def direntAt (item : Direntry × Nat) : FuseDirent := direntOf item.1.name item.1.stat item.2

theorem dirent_listRecord (item : Direntry × Nat) :
    (listRecord plus item.1 item.2).dirent = direntAt item := by
  cases plus <;> rfl

theorem off_direntAt {de : Direntry} {n : Nat} (small : n < 2 ^ 64) :
    (direntAt (de, n)).off.toNat = n := by
  have wrapped : ((n : Int) % 2 ^ 64).toNat = n := by omega
  change (UInt64.ofInt n).toNat = n
  rw [UInt64.ofInt, wrapped, UInt64.toNat_ofNat', Nat.mod_eq_of_lt small]

/-- The offset of the last entry on a page is the position behind the page. -/
theorem last_page {items : List (Direntry × Nat)} {n : Nat} (few : entries.length < 2 ^ 64)
    (front : items <+: (numbered entries).drop n) {last : Direntry × Nat}
    (ends : items.getLast? = some last) : (direntAt last).off.toNat = n + items.length := by
  obtain ⟨rest, whole⟩ := front
  have positive : 0 < items.length := by
    cases items with
    | nil => cases ends
    | cons item items => exact Nat.succ_pos _
  have length := congrArg List.length whole
  rw [List.length_append, List.length_drop, numbered, List.length_zipIdx] at length
  have there : ((numbered entries).drop n)[items.length - 1]? = some last := by
    rw [← whole, List.getElem?_append_left (by omega), ← List.getLast?_eq_getElem?]
    exact ends
  rw [List.getElem?_drop, numbered, List.getElem?_zipIdx, Option.map_eq_some_iff] at there
  obtain ⟨de, _, rfl⟩ := there
  rw [off_direntAt (by omega)]
  omega

/-- One reply from the list, and what comes after it. -/
theorem readListing_step {n : Nat} {next : DirHandle} (few : entries.length < 2 ^ 64)
    (short : ShortNames entries)
    (served : dh.fuseReaddirCommon conf { request with off := n } =
      some (.ok ((window request.plus entries n request.size).flatMap DirRecord.bytes), next))
    (ample : ∀ item ∈ numbered entries, (sheetOf request).1 item ≤ (sheetOf request).2)
    (later : ∀ further, 0 < further → readListing conf next further requests =
      some ((pages (requests.map sheetOf) ((numbered entries).drop further)).flatten.map
        direntAt)) :
    readListing conf dh n (request :: requests) =
      some ((pages ((request :: requests).map sheetOf) ((numbered entries).drop n)).flatten.map
        direntAt) := by
  have reads := readAll_records (@window_ofKind request entries short n)
  have shown := @window_eq request entries n
  rw [Int.toNat_natCast] at shown
  set items := page (sheetOf request).1 (sheetOf request).2 ((numbered entries).drop n)
  have front : items <+: (numbered entries).drop n := page_initial
  have dirents : (window request.plus entries n request.size).map DirRecord.dirent =
      items.map direntAt := by
    rw [shown, List.map_map]
    exact List.map_congr_left fun item _ => dirent_listRecord item
  simp only [readListing, served, Option.bind_eq_bind, Option.bind_some, reads]
  rw [List.map_cons, pages, List.flatten_cons, List.map_append, shown, List.getLast?_map]
  cases ends : items.getLast? with
  | none =>
      have empty : items = [] := List.getLast?_eq_none_iff.mp ends
      have nothing : (numbered entries).drop n = [] := by
        cases behind : (numbered entries).drop n with
        | nil => rfl
        | cons item others =>
            have inside : item ∈ numbered entries :=
              List.mem_of_mem_drop (behind ▸ List.mem_cons_self)
            exact absurd empty (by
              simp only [items, behind]
              exact page_ne_nil (ample item inside))
      rw [nothing, List.drop_nil, flatten_pages_nil, empty]
      rfl
  | some last =>
      have off := last_page few front ends
      have positive : 0 < items.length := List.length_pos_of_mem (List.mem_of_getLast? ends)
      have rest := later (n + items.length) (by omega)
      simp only [Option.map_some, dirent_listRecord, off, rest, Option.bind_some]
      rw [← List.drop_drop]
      rw [shown] at dirents
      rw [dirents]
      rfl

/-- Requests on a list that has been filled. -/
theorem readListing_spec {n : Nat} (few : dh.first.length < 2 ^ 64) (kept : dh.Kept)
    (listing : dh.filled = true) (positive : 0 < n)
    (fits : ∀ request ∈ requests, request.Fits)
    (granted : ∀ request ∈ requests, request.fresh ≠ none)
    (ample : ∀ request ∈ requests, recordMax ≤ request.size) :
    readListing conf dh n requests =
      some ((pages (requests.map sheetOf) ((numbered dh.first).drop n)).flatten.map direntAt) := by
  induction requests generalizing dh n with
  | nil => rfl
  | cons request requests ih =>
      have here := fits request List.mem_cons_self
      have moved : (n : Int) ≠ 0 := by omega
      obtain ⟨reply, next, served, kept', relists, shows, answers⟩ :=
        @fuseReaddirCommon_spec dh conf { request with off := n } kept ⟨here.size, here.names⟩
      obtain ⟨listing', first⟩ := relists.kept listing moved
      have short := kept.names listing
      have reply_eq : reply =
          .ok ((window request.plus dh.first n request.size).flatMap DirRecord.bytes) := by
        cases shows with
        | @failed err wrong =>
            exact absurd rfl (answers (.inl ⟨listing, moved⟩)
              (granted request List.mem_cons_self) err)
        | listed => rw [first]
        | direct _ closed =>
            rw [listing'] at closed
            cases closed
      subst reply_eq
      refine readListing_step few short served (fun item inside => ?_) fun further ahead => ?_
      · exact (listRecord_size_le (short _ (List.fst_mem_of_mem_zipIdx inside))).trans
          (ample request List.mem_cons_self)
      · rw [← first]
        exact ih (by rwa [first]) kept' listing' ahead
          (fun other member => fits other (List.mem_cons_of_mem _ member))
          (fun other member => granted other (List.mem_cons_of_mem _ member))
          (fun other member => ample other (List.mem_cons_of_mem _ member))

/-- A directory that is read from its start is shown as the filesystem has handed it over. -/
theorem readListing_start (kept : dh.Kept) (clean : request.Clean)
    (few : request.answer.calls.length < 2 ^ 64)
    (fits : ∀ other ∈ request :: requests, other.Fits)
    (granted : ∀ other ∈ request :: requests, other.fresh ≠ none)
    (ample : ∀ other ∈ request :: requests, recordMax ≤ other.size) :
    readListing conf dh 0 (request :: requests) =
      some ((pages ((request :: requests).map sheetOf)
        (numbered (request.answer.calls.map (plainEntry conf request.plus)))).flatten.map
          direntAt) := by
  have here := fits request List.mem_cons_self
  obtain ⟨reply, next, served, kept', relists, shows, answers⟩ :=
    @fuseReaddirCommon_spec dh conf { request with off := (0 : Nat) } kept ⟨here.size, here.names⟩
  have clean' : ReaddirRequest.Clean { request with off := (0 : Nat) } :=
    ⟨clean.found, clean.succeeded, clean.calls⟩
  have answered := answers (.inr clean') (granted request List.mem_cons_self)
  cases shows with
  | @failed err wrong => exact absurd rfl (answered err)
  | listed listing =>
      have first : next.first = request.answer.calls.map (plainEntry conf request.plus) :=
        (relists.taken (.inr rfl) listing).entries
      have short : ShortNames (request.answer.calls.map (plainEntry conf request.plus)) :=
        first ▸ kept'.names listing
      simp only [first] at served
      have step := @readListing_step conf request requests
        (request.answer.calls.map (plainEntry conf request.plus)) dh 0 next
        (by rwa [List.length_map]) short served (fun item inside => ?_) fun further ahead => ?_
      · rwa [List.drop_zero] at step
      · exact (listRecord_size_le (short _ (List.fst_mem_of_mem_zipIdx inside))).trans
          (ample request List.mem_cons_self)
      · rw [← first]
        exact readListing_spec (by rwa [first, List.length_map]) kept' listing ahead
          (fun other member => fits other (List.mem_cons_of_mem _ member))
          (fun other member => granted other (List.mem_cons_of_mem _ member))
          (fun other member => ample other (List.mem_cons_of_mem _ member))
  | direct _ closed called numbered =>
      cases calls : request.answer.calls with
      | nil => exact absurd calls called
      | cons call rest =>
          have member : call ∈ request.answer.calls := calls ▸ List.mem_cons_self
          exact absurd (clean.calls call member).plain (numbered call member)

/-- All that a reader gets, and all that there is if the reader asks often enough. -/
theorem readListing_whole (kept : dh.Kept) (clean : request.Clean)
    (few : request.answer.calls.length < 2 ^ 64)
    (fits : ∀ other ∈ request :: requests, other.Fits)
    (granted : ∀ other ∈ request :: requests, other.fresh ≠ none)
    (ample : ∀ other ∈ request :: requests, recordMax ≤ other.size) :
    ∃ shown, readListing conf dh 0 (request :: requests) = some shown ∧
      shown <+: (numbered (request.answer.calls.map (plainEntry conf request.plus))).map direntAt ∧
      (request.answer.calls.length ≤ requests.length + 1 →
        shown = (numbered (request.answer.calls.map (plainEntry conf request.plus))).map
          direntAt) := by
  refine ⟨_, readListing_start kept clean few fits granted ample,
    (flatten_pages_initial _).map _, fun enough => ?_⟩
  refine congrArg (List.map direntAt) (flatten_pages_eq ?_ ?_)
  · intro sheet inside item member
    obtain ⟨other, asked, rfl⟩ := List.mem_map.mp inside
    obtain ⟨call, called, same⟩ := List.mem_map.mp (List.fst_mem_of_mem_zipIdx member)
    refine (listRecord_size_le ?_).trans (ample other asked)
    rw [← same]
    exact (fits request List.mem_cons_self).names call called
  · rw [numbered, List.length_zipIdx, List.length_map, List.length_map]
    exact enough

/-! ## Every run -/

/-- Every request is answered without a write outside the buffer, and every reply that is
not an error can be read. -/
theorem served_legible (conf : DirConfig) (fits : ∀ request ∈ requests, request.Fits) :
    ∃ replies dh, serve conf opened requests = some (replies, dh) ∧
      List.Forall₂ Legible requests replies := by
  obtain ⟨replies, dh, served, _, legible⟩ := @serve_spec conf requests opened kept_opened fits
  exact ⟨replies, dh, served, legible⟩

theorem Kept.of_served (fits : ∀ request ∈ before, request.Fits)
    (served : serve conf opened before = some (replies, dh)) : dh.Kept := by
  obtain ⟨_, _, served', kept, _⟩ := @serve_spec conf before opened kept_opened fits
  rw [served] at served'
  cases served'
  exact kept

/-- A request behind the start is answered from the list that the filesystem has handed
over last; nobody has gone back to the start since then. -/
theorem list_kept (fits : ∀ other ∈ before, other.Fits)
    (served : serve conf opened before = some (replies, dh)) (listing : dh.filled = true)
    (here : request.Fits) (moved : request.off ≠ 0) :
    ∃ earlier filling later, before = earlier ++ filling :: later ∧
      filling.Lists conf dh.first ∧ (∀ other ∈ later, other.off ≠ 0) ∧
      ∃ reply dh', dh.fuseReaddirCommon conf request = some (reply, dh') ∧
        dh'.filled = true ∧ dh'.first = dh.first ∧
        ((∃ err, request.fresh = none ∧ reply = .error err) ∨
          ∃ bytes, reply = .ok bytes ∧ (recordReader request.plus).readAll bytes =
            some (window request.plus dh.first request.off request.size)) := by
  have kept := Kept.of_served fits served
  rcases serve_list kept_opened fits served listing with ⟨never, _⟩ |
    ⟨earlier, filling, later, split, lists, seeks⟩
  · cases never
  · obtain ⟨reply, dh', answered, kept', relists, shows, granted⟩ :=
      @fuseReaddirCommon_spec dh conf request kept here
    obtain ⟨listing', first⟩ := relists.kept listing moved
    refine ⟨earlier, filling, later, split, lists, seeks, reply, dh', answered, listing', first, ?_⟩
    cases shows with
    | @failed err wrong =>
        refine .inl ⟨err, ?_, rfl⟩
        by_contra some
        exact granted (.inl ⟨listing, moved⟩) some err rfl
    | listed =>
        rw [first]
        exact .inr ⟨_, rfl, readAll_records (window_ofKind (kept.names listing) _)⟩
    | direct _ closed =>
        rw [listing'] at closed
        cases closed

/-- A filesystem that has handed over entries with offsets and entries without is not
believed; otherwise the reply shows what has been handed over. -/
theorem never_mixed {bytes : Bytes} (fits : ∀ other ∈ before, other.Fits)
    (served : serve conf opened before = some (replies, dh)) (here : request.Fits)
    (asked : dh.filled = false ∨ request.off = 0)
    (answered : dh.fuseReaddirCommon conf request = some (.ok bytes, dh')) :
    (∀ call ∈ request.answer.calls, call.off = 0) ∧
        (recordReader request.plus).readAll bytes = some (window request.plus
          (request.answer.calls.map (plainEntry conf request.plus)) request.off request.size) ∨
      request.answer.calls ≠ [] ∧ (∀ call ∈ request.answer.calls, call.off ≠ 0) ∧
        ∃ records, request.answer.calls.map (directRecord conf request.plus) =
            records.map Option.some ∧
          (recordReader request.plus).readAll bytes =
            some (packing DirRecord.size request.size records) := by
  obtain ⟨reply, last, answered', kept, relists, shows, _⟩ :=
    @fuseReaddirCommon_spec dh conf request (Kept.of_served fits served) here
  rw [answered] at answered'
  cases answered'
  cases shows with
  | listed listing =>
      have lists := relists.taken asked listing
      refine .inl ⟨lists.plain, ?_⟩
      rw [← lists.entries]
      exact readAll_records (window_ofKind (kept.names listing) _)
  | direct records _ called numbered completed =>
      exact .inr ⟨called, numbered, records, completed,
        readAll_records (packing_ofKind here completed)⟩

end DirHandle

/-! ## A directory with two files -/

/-- The options without which libfuse invents all numbers. -/
def plainConfig : DirConfig := ⟨false, false⟩

/-- A name that a filesystem hands over with its type only. -/
def nameCall (name : Bytes) : FillCall :=
  ⟨name, some { Stat.zero with stMode := sIfreg }, 0, 0, fuseUnknownIno, .error .enoent, none, true⟩

def twoNames : Filling := ⟨0, [nameCall (ascii "a"), nameCall (ascii "bc")], 0⟩

/-- Ask for the directory from an offset on. -/
def askFrom (off : Int) : ReaddirRequest := ⟨4096, off, false, twoNames, some fun _ => 0⟩

theorem fits_askFrom (off : Int) : (askFrom off).Fits where
  size := (by decide : 4096 ≤ 2 ^ 31)
  names := (by decide : ∀ call ∈ twoNames.calls, call.name.length ≤ nameMax)

theorem clean_askFrom (off : Int) : (askFrom off).Clean where
  found := rfl
  succeeded := rfl
  calls := by
    intro call called
    rcases List.mem_pair.mp called with rfl | rfl <;> exact ⟨rfl, rfl, rfl⟩

namespace DirHandle

theorem served_legible_twoNames :
    ∃ replies dh, serve plainConfig opened [askFrom 0, askFrom 1] = some (replies, dh) ∧
      List.Forall₂ Legible [askFrom 0, askFrom 1] replies :=
  served_legible plainConfig fun _ asked => by
    rcases List.mem_pair.mp asked with rfl | rfl <;> exact fits_askFrom _

theorem filled_twoNames :
    (serve plainConfig opened [askFrom 0]).map (fun served => served.2.filled) = some true := by
  decide +kernel

theorem list_kept_twoNames : ∃ replies dh dh' bytes,
    serve plainConfig opened [askFrom 0] = some (replies, dh) ∧
      dh.fuseReaddirCommon plainConfig (askFrom 1) = some (.ok bytes, dh') ∧
      (recordReader false).readAll bytes = some (window false dh.first 1 4096) := by
  have fits : ∀ other ∈ [askFrom 0], other.Fits := fun other asked => by
    rw [List.mem_singleton.mp asked]
    exact fits_askFrom 0
  obtain ⟨⟨replies, dh⟩, served, listing⟩ := Option.map_eq_some_iff.mp filled_twoNames
  obtain ⟨_, _, _, _, _, _, reply, dh', answered, _, _, outcome⟩ :=
    list_kept fits served listing (fits_askFrom 1) (by decide)
  rcases outcome with ⟨_, scarce, _⟩ | ⟨bytes, rfl, reads⟩
  · cases scarce
  · exact ⟨replies, dh, dh', bytes, served, answered, reads⟩

theorem never_mixed_twoNames : ∃ bytes dh,
    opened.fuseReaddirCommon plainConfig (askFrom 0) = some (.ok bytes, dh) ∧
      (recordReader false).readAll bytes = some (window false
        (twoNames.calls.map (plainEntry plainConfig false)) 0 4096) := by
  obtain ⟨reply, dh, answered, _, _, _, granted⟩ :=
    @fuseReaddirCommon_spec opened plainConfig (askFrom 0) kept_opened (fits_askFrom 0)
  cases reply with
  | error err =>
      exact absurd rfl (granted (.inr (clean_askFrom 0)) (fun scarce => by cases scarce) err)
  | ok bytes =>
      rcases @never_mixed plainConfig (askFrom 0) [] opened dh [] bytes
        (fun _ absent => absurd absent List.not_mem_nil) rfl (fits_askFrom 0) (.inl rfl)
        answered with ⟨_, reads⟩ | ⟨_, numbered, _⟩
      · exact ⟨bytes, dh, answered, reads⟩
      · exact absurd rfl (numbered (nameCall (ascii "a")) List.mem_cons_self)

end DirHandle

end Libfuse

end NosqlFS
