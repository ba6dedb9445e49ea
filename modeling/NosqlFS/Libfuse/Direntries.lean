import NosqlFS.Host.Types
import NosqlFS.Text.Records

/-!
# Directory entries on the wire

The reply to a `READDIR` is a sequence of records, each with a header of fixed width, a
name and zeros up to a multiple of eight bytes.  The reply to a `READDIRPLUS` has the
attributes of the file in front of each record.
-/

namespace NosqlFS

namespace Libfuse

open Text

/-! ## Records -/

/-- `struct fuse_attr` -/
structure FuseAttr where
  ino : UInt64
  size : UInt64
  blocks : UInt64
  atime : UInt64
  mtime : UInt64
  ctime : UInt64
  atimensec : UInt32
  mtimensec : UInt32
  ctimensec : UInt32
  mode : UInt32
  nlink : UInt32
  uid : UInt32
  gid : UInt32
  rdev : UInt32
  blksize : UInt32
  padding : UInt32
  deriving DecidableEq, Repr

/-- `struct fuse_entry_out` -/
structure FuseEntryOut where
  nodeid : UInt64
  generation : UInt64
  entryValid : UInt64
  attrValid : UInt64
  entryValidNsec : UInt32
  attrValidNsec : UInt32
  attr : FuseAttr
  deriving DecidableEq, Repr

/-- `struct fuse_dirent`; its `namelen` is the length of the name. -/
structure FuseDirent where
  ino : UInt64
  off : UInt64
  type : UInt32
  name : Bytes
  deriving DecidableEq, Repr

/-- `struct fuse_direntplus`, or `struct fuse_dirent` if there is no entry. -/
structure DirRecord where
  entry : Option FuseEntryOut
  dirent : FuseDirent
  deriving DecidableEq, Repr

/-- `FUSE_NAME_OFFSET` and `FUSE_NAME_OFFSET_DIRENTPLUS` -/
def fuseNameOffset (plus : Bool) : Nat := if plus then 152 else 24

/-- `FUSE_DIRENT_ALIGN`: the three lowest bits are masked. -/
def fuseDirentAlign (length : Nat) : Nat := (length + 8 - 1) / 8 * 8

theorem le_fuseDirentAlign (length : Nat) : length ≤ fuseDirentAlign length := by
  unfold fuseDirentAlign
  omega

theorem fuseDirentAlign_lt (length : Nat) : fuseDirentAlign length < length + 8 := by
  unfold fuseDirentAlign
  omega

/-! ## Writing -/

/-- The fields of a `struct fuse_entry_out` with their widths. -/
def FuseEntryOut.words (e : FuseEntryOut) : List (Nat × Nat) :=
  [(8, e.nodeid.toNat), (8, e.generation.toNat), (8, e.entryValid.toNat), (8, e.attrValid.toNat),
    (4, e.entryValidNsec.toNat), (4, e.attrValidNsec.toNat), (8, e.attr.ino.toNat),
    (8, e.attr.size.toNat), (8, e.attr.blocks.toNat), (8, e.attr.atime.toNat),
    (8, e.attr.mtime.toNat), (8, e.attr.ctime.toNat), (4, e.attr.atimensec.toNat),
    (4, e.attr.mtimensec.toNat), (4, e.attr.ctimensec.toNat), (4, e.attr.mode.toNat),
    (4, e.attr.nlink.toNat), (4, e.attr.uid.toNat), (4, e.attr.gid.toNat),
    (4, e.attr.rdev.toNat), (4, e.attr.blksize.toNat), (4, e.attr.padding.toNat)]

def FuseDirent.words (d : FuseDirent) : List (Nat × Nat) :=
  [(8, d.ino.toNat), (8, d.off.toNat), (4, d.name.length), (4, d.type.toNat)]

namespace DirRecord

/-- The length of a record without its padding. -/
def entlen (record : DirRecord) : Nat :=
  fuseNameOffset record.entry.isSome + record.dirent.name.length

/-- The length of a record with its padding. -/
def size (record : DirRecord) : Nat := fuseDirentAlign record.entlen

def header (record : DirRecord) : Bytes :=
  match record.entry with
  | none => []
  | some e => writeWords e.words

def bytes (record : DirRecord) : Bytes :=
  record.header ++ (writeWords record.dirent.words ++ (record.dirent.name ++
    List.replicate (record.size - record.entlen) 0))

@[simp]
theorem length_bytes (record : DirRecord) : record.bytes.length = record.size := by
  have padded := le_fuseDirentAlign record.entlen
  have fields : (writeWords record.dirent.words).length = 24 := by
    simp [writeWords, FuseDirent.words]
  have front : record.header.length + 24 = fuseNameOffset record.entry.isSome := by
    unfold header
    cases record.entry with
    | none => rfl
    | some e => simp [writeWords, FuseEntryOut.words, fuseNameOffset]
  rw [bytes, List.length_append, List.length_append, List.length_append, List.length_replicate,
    fields]
  unfold size
  rw [entlen] at padded ⊢
  omega

theorem size_pos (record : DirRecord) : 0 < record.size := by
  have padded := le_fuseDirentAlign record.entlen
  have front : 24 ≤ fuseNameOffset record.entry.isSome := by
    cases record.entry.isSome <;> decide
  rw [entlen] at padded
  unfold size entlen
  omega

/-- A record with a short name is short. -/
theorem size_le {record : DirRecord} {most : Nat} (short : record.dirent.name.length ≤ most) :
    record.size ≤ most + 160 := by
  have padded := fuseDirentAlign_lt record.entlen
  have front : fuseNameOffset record.entry.isSome ≤ 152 := by
    cases record.entry.isSome <;> decide
  rw [entlen] at padded
  unfold size entlen
  omega

/-- Every record ends at a multiple of eight. -/
theorem eight_dvd_size (record : DirRecord) : 8 ∣ record.size := Dvd.intro_left _ (by
  unfold size fuseDirentAlign
  rfl)

end DirRecord

/-! ## Reading -/

def entryOutWidths : List Nat := [8, 8, 8, 8, 4, 4, 8, 8, 8, 8, 8, 8, 4, 4, 4, 4, 4, 4, 4, 4, 4, 4]

def FuseEntryOut.ofWords : List Nat → Option FuseEntryOut
  | [nodeid, generation, entryValid, attrValid, entryValidNsec, attrValidNsec, ino, size, blocks,
      atime, mtime, ctime, atimensec, mtimensec, ctimensec, mode, nlink, uid, gid, rdev, blksize,
      padding] =>
      some ⟨.ofNat nodeid, .ofNat generation, .ofNat entryValid, .ofNat attrValid,
        .ofNat entryValidNsec, .ofNat attrValidNsec,
        ⟨.ofNat ino, .ofNat size, .ofNat blocks, .ofNat atime, .ofNat mtime, .ofNat ctime,
          .ofNat atimensec, .ofNat mtimensec, .ofNat ctimensec, .ofNat mode, .ofNat nlink,
          .ofNat uid, .ofNat gid, .ofNat rdev, .ofNat blksize, .ofNat padding⟩⟩
  | _ => none

def readEntryOut (plus : Bool) (bytes : Bytes) : Option (Option FuseEntryOut × Bytes) :=
  if plus then do
    let (values, rest) ← readWords entryOutWidths bytes
    let e ← FuseEntryOut.ofWords values
    return (some e, rest)
  else some (none, bytes)

/-- Read a name and the padding behind it; the record has begun `offset` bytes before. -/
def readName (offset namelen : Nat) (bytes : Bytes) : Option (Bytes × Bytes) := do
  let (name, padded) ← readBytes namelen bytes
  let (_, rest) ← readBytes (fuseDirentAlign (offset + namelen) - (offset + namelen)) padded
  return (name, rest)

def readRecord (plus : Bool) (bytes : Bytes) : Option (DirRecord × Bytes) := do
  let (entry, behind) ← readEntryOut plus bytes
  match ← readWords [8, 8, 4, 4] behind with
  | ([ino, off, namelen, type], named) => do
      let (name, rest) ← readName (fuseNameOffset plus) namelen named
      return (⟨entry, ⟨.ofNat ino, .ofNat off, .ofNat type, name⟩⟩, rest)
  | _ => none

theorem readEntryOut_length {plus : Bool} {bytes rest : Bytes} {entry : Option FuseEntryOut}
    (reads : readEntryOut plus bytes = some (entry, rest)) : rest.length ≤ bytes.length := by
  cases plus with
  | false =>
      cases reads
      exact Nat.le_refl _
  | true =>
      simp only [readEntryOut, ↓reduceIte, Option.bind_eq_bind, Option.bind_eq_some_iff] at reads
      obtain ⟨⟨values, behind⟩, words, e, _, same⟩ := reads
      cases same
      exact readWords_length_le words

theorem readName_length {offset namelen : Nat} {bytes name rest : Bytes}
    (reads : readName offset namelen bytes = some (name, rest)) : rest.length ≤ bytes.length := by
  simp only [readName, Option.bind_eq_bind, Option.bind_eq_some_iff] at reads
  obtain ⟨⟨_, padded⟩, first, ⟨_, behind⟩, second, same⟩ := reads
  cases same
  have shorter : padded.length + namelen = bytes.length := readBytes_length first
  have shortest : behind.length + _ = padded.length := readBytes_length second
  exact (Nat.le_add_right _ _).trans (shortest.le.trans ((Nat.le_add_right _ _).trans shorter.le))

/-- The records of a reply to a `READDIR` or a `READDIRPLUS`. -/
def recordReader (plus : Bool) : Reader DirRecord where
  read := readRecord plus
  shortens := by
    intro bytes record rest reads
    simp only [readRecord, Option.bind_eq_bind, Option.bind_eq_some_iff] at reads
    obtain ⟨⟨entry, behind⟩, front, ⟨values, named⟩, words, reads⟩ := reads
    have shorter := readEntryOut_length front
    have header : named.length < behind.length := readWords_length_lt (by decide : 0 < 8) words
    split at reads
    · next same =>
        simp only [Option.bind_eq_some_iff] at reads
        obtain ⟨⟨name, tail⟩, last, same'⟩ := reads
        cases same
        cases same'
        have shortest : tail.length ≤ named.length := readName_length last
        exact shortest.trans_lt (header.trans_le shorter)
    · cases reads

/-! ## The round trip -/

theorem ofNat_toNat_mod64 (n : UInt64) : UInt64.ofNat (n.toNat % 256 ^ 8) = n := by
  have bound : n.toNat < 256 ^ 8 := n.toNat_lt
  rw [Nat.mod_eq_of_lt bound, UInt64.ofNat_toNat]

theorem ofNat_toNat_mod32 (n : UInt32) : UInt32.ofNat (n.toNat % 256 ^ 4) = n := by
  have bound : n.toNat < 256 ^ 4 := n.toNat_lt
  rw [Nat.mod_eq_of_lt bound, UInt32.ofNat_toNat]

theorem FuseEntryOut.ofWords_words (e : FuseEntryOut) :
    FuseEntryOut.ofWords (e.words.map fun word => word.2 % 256 ^ word.1) = some e := by
  simp only [words, List.map_cons, List.map_nil, ofWords, ofNat_toNat_mod64, ofNat_toNat_mod32]

theorem readEntryOut_header (record : DirRecord) (rest : Bytes) :
    readEntryOut record.entry.isSome (record.header ++ rest) = some (record.entry, rest) := by
  obtain ⟨entry, dirent⟩ := record
  cases entry with
  | none => rfl
  | some e =>
      have words := readWords_writeWords e.words rest
      have widths : e.words.map Prod.fst = entryOutWidths := rfl
      rw [widths] at words
      simp only [readEntryOut, Option.isSome_some, ↓reduceIte, DirRecord.header, words,
        Option.bind_eq_bind, Option.bind_some, FuseEntryOut.ofWords_words]
      rfl

theorem readName_append (offset : Nat) (name rest : Bytes) :
    readName offset name.length (name ++ (List.replicate (fuseDirentAlign (offset + name.length) -
      (offset + name.length)) 0 ++ rest)) = some (name, rest) := by
  have padding := readBytes_append (List.replicate (fuseDirentAlign (offset + name.length) -
      (offset + name.length)) 0) rest
  rw [List.length_replicate] at padding
  simp only [readName, readBytes_append, Option.bind_eq_bind, Option.bind_some, padding]
  rfl

/-- A record whose name has a length of 32 bits is read back, and what stands behind it is
left. -/
theorem readRecord_bytes {record : DirRecord} (short : record.dirent.name.length < 2 ^ 32)
    (rest : Bytes) :
    readRecord record.entry.isSome (record.bytes ++ rest) = some (record, rest) := by
  have words := readWords_writeWords record.dirent.words (record.dirent.name ++
    (List.replicate (record.size - record.entlen) 0 ++ rest))
  have name := readName_append (fuseNameOffset record.entry.isSome) record.dirent.name rest
  have length : record.dirent.name.length % 256 ^ 4 = record.dirent.name.length :=
    Nat.mod_eq_of_lt short
  simp only [FuseDirent.words, List.map_cons, List.map_nil, length] at words
  rw [DirRecord.bytes, List.append_assoc, List.append_assoc, List.append_assoc, readRecord,
    readEntryOut_header]
  simp only [Option.bind_eq_bind, Option.bind_some, FuseDirent.words]
  rw [words]
  simp only [Option.bind_some]
  rw [DirRecord.size, DirRecord.entlen, name]
  simp only [Option.bind_some, ofNat_toNat_mod64, ofNat_toNat_mod32]
  rfl

end Libfuse

end NosqlFS
