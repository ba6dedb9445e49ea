import NosqlFS.Libfuse.Paths
import NosqlFS.Runs.Files
import NosqlFS.Source.Handlers

/-!
# Buffers of requests

The data of a request stands in several buffers, in memory or behind descriptors.  libfuse
copies from one vector of buffers to another one piece by piece, and hands the filesystem
one buffer that holds it all.  No two buffers share memory here, and a vector is not copied
to itself.
-/

namespace NosqlFS

namespace Libfuse

open Text

def sizeMax : Nat := 2 ^ 64 - 1

/-- `struct fuse_buf` with its flags `FUSE_BUF_IS_FD` and `FUSE_BUF_FD_RETRY`, and with the memory
that is its own -/
structure FuseBuf where
  size : Nat
  isFd : Bool
  retry : Bool
  mem : Memory

/-- `struct fuse_bufvec`; its count is the number of buffers. -/
structure FuseBufvec where
  idx : Nat
  off : Nat
  buf : List FuseBuf

/-- What the host gives to a call of `read` or `pread`. -/
abbrev ReadAnswer : Type := Except Errno Bytes

def FuseBuf.bytes (b : FuseBuf) : Bytes := b.mem.bytesAt 0 b.size

def fuseBufSize (bufv : FuseBufvec) : Nat :=
  bufv.buf.foldl (fun size b =>
    if b.size = sizeMax then sizeMax else (size + b.size) % 2 ^ 64) 0

/-- `FUSE_BUFVEC_INIT` with its memory -/
def fuseBufvecInit (size : Nat) (mem : Memory) : FuseBufvec := ⟨0, 0, [⟨size, false, false, mem⟩]⟩

/-- The loop of `fuse_buf_read`; a host that answers no more is at the end of the file. -/
def fuseBufRead (retry : Bool) : List ReadAnswer → Memory → Nat → Nat → Nat →
    Int × Memory × List ReadAnswer
  | [], mem, _, _, copied => (copied, mem, [])
  | answer :: host, mem, dstOff, len, copied =>
      if len = 0 then (copied, mem, answer :: host)
      else
        match answer with
        | .error errno => (if copied = 0 then -errno.code else copied, mem, host)
        | .ok given =>
            let read := given.take len
            if read = [] then (copied, mem, host)
            else if retry = false then (copied + read.length, mem.write dstOff read, host)
            else fuseBufRead retry host (mem.write dstOff read) (dstOff + read.length)
              (len - read.length) (copied + read.length)

/-- The destination is in memory that it does not share with the source, so that nothing
overlaps; `none` is an access outside of a buffer. -/
def fuseBufCopyOne (dst : FuseBuf) (dstOff : Nat) (src : FuseBuf) (srcOff len : Nat)
    (host : List ReadAnswer) : Option (Int × Memory × List ReadAnswer) :=
  if dst.size < dstOff + len then none
  else if src.isFd then some (fuseBufRead src.retry host dst.mem dstOff len 0)
  else if src.size < srcOff + len then none
  else some (len, dst.mem.write dstOff (src.mem.bytesAt srcOff len), host)

namespace FuseBufvec

def current (bufv : FuseBufvec) : Option FuseBuf := bufv.buf[bufv.idx]?

/-- The bytes of a buffer that are left; the subtraction is unsigned. -/
def left (bufv : FuseBufvec) (b : FuseBuf) : Nat := (b.size + 2 ^ 64 - bufv.off) % 2 ^ 64

/-- `fuse_bufvec_advance`; `none` is a failed assertion. -/
def advance (bufv : FuseBufvec) (len : Nat) : Option (Bool × FuseBufvec) := do
  let b ← bufv.current
  let off := (bufv.off + len) % 2 ^ 64
  if b.size < off then none
  else if off ≠ b.size then return (true, { bufv with off := off })
  else if bufv.idx + 1 = bufv.buf.length then
    return (false, { bufv with off := off, idx := bufv.idx + 1 })
  else return (true, { bufv with off := 0, idx := bufv.idx + 1 })

/-- The memory of the current buffer after a copy. -/
def store (bufv : FuseBufvec) (dst : FuseBuf) (mem : Memory) : FuseBufvec :=
  { bufv with buf := bufv.buf.set bufv.idx { dst with mem := mem } }

end FuseBufvec

/-- The loop of `fuse_buf_copy`, with the number of rounds that it may take. -/
def copyWithin : Nat → FuseBufvec → FuseBufvec → Nat → List ReadAnswer →
    Option (Int × FuseBufvec × FuseBufvec × List ReadAnswer)
  | 0, _, _, _, _ => none
  | rounds + 1, dstv, srcv, copied, host =>
      match srcv.current, dstv.current with
      | some src, some dst => do
          let len := min (srcv.left src) (dstv.left dst)
          let (res, mem, host) ← fuseBufCopyOne dst dstv.off src srcv.off len host
          let stored := dstv.store dst mem
          if res < 0 then return (if copied = 0 then res else copied, stored, srcv, host)
          else
            let total := copied + res.toNat
            let (more, srcv) ← srcv.advance res.toNat
            if more = false then return (total, stored, srcv, host)
            else
              let (more, dstv) ← stored.advance res.toNat
              if more = false ∨ res < len then return (total, dstv, srcv, host)
              else copyWithin rounds dstv srcv total host
      | _, _ => some (copied, dstv, srcv, host)

/-- The two vectors are different ones: of a vector and itself, `fuse_buf_copy` only tells the
size. -/
def fuseBufCopy (dstv srcv : FuseBufvec) (host : List ReadAnswer) :
    Option (Int × FuseBufvec × FuseBufvec × List ReadAnswer) :=
  copyWithin (dstv.buf.length + srcv.buf.length + 1) dstv srcv 0 host

/-- What `fuse_fs_write_buf` has after its copy; the result of the copy becomes an `int`. -/
def copiedBuf (copied : Int) (flat : FuseBufvec) : Option (Except Int (Memory × Nat)) :=
  if toInt copied ≤ 0 then some (.error (toInt copied))
  else flat.buf.head?.map fun flatbuf => .ok (flatbuf.mem, (toInt copied).toNat)

/-- The buffer that `fuse_fs_write_buf` hands to the operation `write`; `malloc` gives memory
or none. -/
def flatBuf (bufv : FuseBufvec) (granted : Option Memory) (host : List ReadAnswer) :
    Option (Except Int (Memory × Nat)) :=
  if bufv.idx ≠ 0 ∨ bufv.off ≠ 0 then none
  else
    match bufv.buf with
    | [⟨size, false, _, mem⟩] => some (.ok (mem, size))
    | _ =>
        match granted with
        | none => some (.error ENOMEM)
        | some mem =>
            (fuseBufCopy (fuseBufvecInit (fuseBufSize bufv) mem) bufv host).bind fun done =>
              copiedBuf done.1 done.2.1

/-- `fuse_fs_write_buf` for a filesystem with the operation `write`: its result is an error or
what the operation does. -/
def fuseFsWriteBuf {Result : Type _} (write : Memory → Nat → Result) (bufv : FuseBufvec)
    (granted : Option Memory) (host : List ReadAnswer) : Option (Except Int Result) :=
  match flatBuf bufv granted host with
  | none => none
  | some (.error err) => some (.error err)
  | some (.ok (mem, size)) => some (.ok (write mem size))

/-- The operation `write` of `nosqlFS_oper` on a buffer in memory. -/
def writeOperation (path : Bytes) (address : Nat) (offset : Int) (fi : Pointer FuseFileInfo)
    (mem : Memory) (size : Nat) : Handler Int :=
  nosqlFSWrite path ⟨address, mem.bytesAt 0 size⟩ size offset fi

/-! ## What a vector holds -/

/-- Put some bytes over others. -/
def overwrite (place : Nat) (bytes whole : Bytes) : Bytes :=
  whole.take place ++ (bytes ++ whole.drop (place + bytes.length))

section Overwrite

variable {place : Nat} {bytes others whole front back : Bytes}

@[simp]
theorem overwrite_nil : overwrite place [] whole = whole := by
  rw [overwrite, List.nil_append, List.length_nil, Nat.add_zero, List.take_append_drop]

@[simp]
theorem overwrite_length (inside : place + bytes.length ≤ whole.length) :
    (overwrite place bytes whole).length = whole.length := by
  simp only [overwrite, List.length_append, List.length_take, List.length_drop]
  omega

/-- What is written into a part leaves the other parts alone. -/
theorem overwrite_append (inside : place + bytes.length ≤ whole.length) :
    overwrite (front.length + place) bytes (front ++ (whole ++ back)) =
      front ++ (overwrite place bytes whole ++ back) := by
  have before : (whole ++ back).take place = whole.take place :=
    List.take_append_of_le_length (by omega)
  have behind : (whole ++ back).drop (place + bytes.length) =
      whole.drop (place + bytes.length) ++ back := List.drop_append_of_le_length inside
  rw [overwrite, Nat.add_assoc, List.take_length_add_append, List.drop_length_add_append, before,
    behind, overwrite]
  simp only [List.append_assoc]

/-- Bytes that are written behind each other are written as one. -/
theorem overwrite_overwrite (inside : place + bytes.length ≤ whole.length) :
    overwrite (place + bytes.length) others (overwrite place bytes whole) =
      overwrite place (bytes ++ others) whole := by
  have lower : (whole.take place ++ bytes).length = place + bytes.length := by
    rw [List.length_append, List.length_take]
    omega
  have parts : overwrite place bytes whole =
      (whole.take place ++ bytes) ++ whole.drop (place + bytes.length) :=
    (List.append_assoc _ _ _).symm
  rw [parts, overwrite, ← lower, List.take_left, List.drop_length_add_append, lower,
    List.drop_drop, overwrite, List.length_append, Nat.add_assoc]
  simp only [List.append_assoc]

end Overwrite

@[simp]
theorem FuseBuf.bytes_length (b : FuseBuf) : b.bytes.length = b.size := Memory.bytesAt_length _

theorem bytesAt_overwrite {mem : Memory} {place size : Nat} {bytes : Bytes}
    (inside : place + bytes.length ≤ size) :
    (mem.write place bytes).bytesAt 0 size = overwrite place bytes (mem.bytesAt 0 size) := by
  obtain ⟨rest, rfl⟩ := Nat.exists_eq_add_of_le inside
  have first : (mem.write place bytes).bytesAt 0 place = mem.bytesAt 0 place := by
    have behind := @Memory.bytesAt_write_behind mem 0 bytes place
    rwa [Nat.zero_add] at behind
  have second : (mem.write place bytes).bytesAt place bytes.length = bytes := Memory.bytesAt_write
  have third := @Memory.bytesAt_write_before mem place bytes _ (Nat.le_refl _) rest
  have lower : (mem.bytesAt 0 place).length = place := Memory.bytesAt_length _
  have upper : (mem.bytesAt 0 (place + bytes.length)).length = place + bytes.length :=
    Memory.bytesAt_length _
  have taken : (mem.bytesAt 0 (place + bytes.length + rest)).take place = mem.bytesAt 0 place := by
    rw [Nat.add_assoc, Memory.bytesAt_add]
    exact List.take_left' lower
  have dropped : (mem.bytesAt 0 (place + bytes.length + rest)).drop (place + bytes.length) =
      mem.bytesAt (place + bytes.length) rest := by
    rw [Memory.bytesAt_add, Nat.zero_add]
    exact List.drop_left' upper
  rw [overwrite, taken, dropped, Memory.bytesAt_add, Memory.bytesAt_add, Nat.zero_add,
    Nat.zero_add, first, second, third, List.append_assoc]

namespace FuseBufvec

variable {bufv : FuseBufvec} {b : FuseBuf} {n : Nat}

/-- All bytes of the buffers. -/
def whole (bufv : FuseBufvec) : Bytes := bufv.buf.flatMap FuseBuf.bytes

/-- How far a vector has come. -/
def place (bufv : FuseBufvec) : Nat :=
  ((bufv.buf.take bufv.idx).flatMap FuseBuf.bytes).length + bufv.off

/-- The bytes that are still to come. -/
def pending (bufv : FuseBufvec) : Bytes := bufv.whole.drop bufv.place

/-- Sizes are machine words and the offset is inside the current buffer. -/
structure Valid (bufv : FuseBufvec) : Prop where
  sizes : ∀ b ∈ bufv.buf, b.size < 2 ^ 64
  inside : ∀ b, bufv.current = some b → bufv.off ≤ b.size

theorem exists_parts (here : bufv.current = some b) :
    ∃ front back, bufv = ⟨front.length, bufv.off, front ++ b :: back⟩ := by
  obtain ⟨idx, off, buf⟩ := bufv
  obtain ⟨bound, rfl⟩ := List.getElem?_eq_some_iff.mp here
  refine ⟨buf.take idx, buf.drop (idx + 1), ?_⟩
  rw [List.length_take_of_le bound.le, ← List.drop_eq_getElem_cons bound, List.take_append_drop]

@[simp]
theorem place_parts {front back : List FuseBuf} {off : Nat} :
    place ⟨front.length, off, front ++ back⟩ = (front.flatMap FuseBuf.bytes).length + off := by
  rw [place, List.take_left]

@[simp]
theorem whole_parts {front back : List FuseBuf} {idx off : Nat} :
    whole ⟨idx, off, front ++ b :: back⟩ =
      front.flatMap FuseBuf.bytes ++ (b.bytes ++ back.flatMap FuseBuf.bytes) := by
  rw [whole, List.flatMap_append, List.flatMap_cons]

theorem Valid.left_eq (valid : bufv.Valid) (here : bufv.current = some b) :
    bufv.left b = b.size - bufv.off := by
  have small := valid.sizes b (List.mem_of_getElem? here)
  have inside := valid.inside b here
  unfold left
  omega

theorem pending_of_current_none (none : bufv.current = none) : bufv.pending = [] := by
  have beyond := List.getElem?_eq_none_iff.mp none
  rw [pending, place, whole, List.take_of_length_le beyond]
  exact List.drop_eq_nil_of_le (Nat.le_add_right _ _)

/-- The bytes of the current buffer come first. -/
theorem pending_eq (valid : bufv.Valid) (here : bufv.current = some b) :
    ∃ later, bufv.pending = b.bytes.drop bufv.off ++ later := by
  have inside := valid.inside b here
  obtain ⟨front, back, parts⟩ := exists_parts here
  refine ⟨back.flatMap FuseBuf.bytes, ?_⟩
  rw [pending, parts, whole_parts, place_parts, List.drop_length_add_append,
    List.drop_append_of_le_length (by rw [FuseBuf.bytes_length]; exact inside)]

theorem pending_length (bufv : FuseBufvec) :
    bufv.pending.length = bufv.whole.length - bufv.place := List.length_drop

/-- What can happen when a vector goes on. -/
theorem advance_spec (valid : bufv.Valid) (here : bufv.current = some b)
    (room : bufv.off + n ≤ b.size) :
    ∃ more next, bufv.advance n = some (more, next) ∧ next.buf = bufv.buf ∧
      (more = false → bufv.whole.length = bufv.place + n) ∧
      (more = true → next.Valid ∧ next.place = bufv.place + n ∧ bufv.idx ≤ next.idx ∧
        (bufv.off + n = b.size → next.idx = bufv.idx + 1)) := by
  have small := valid.sizes b (List.mem_of_getElem? here)
  have off : (bufv.off + n) % 2 ^ 64 = bufv.off + n := Nat.mod_eq_of_lt (by omega)
  obtain ⟨front, back, parts⟩ := exists_parts here
  unfold advance
  simp only [here, off, Option.bind_eq_bind, Option.bind_some, if_neg (Nat.not_lt_of_ge room)]
  by_cases done : bufv.off + n = b.size
  · rw [if_neg (not_not.mpr done)]
    by_cases last : bufv.idx + 1 = bufv.buf.length
    · rw [if_pos last]
      refine ⟨false, _, rfl, rfl, fun _ => ?_, fun more => by cases more⟩
      have nothing : back = [] := by
        rw [parts] at last
        simp only [List.length_append, List.length_cons] at last
        exact List.eq_nil_of_length_eq_zero (by omega)
      rw [parts, whole_parts, place_parts, nothing]
      simp only [List.length_append, FuseBuf.bytes_length, List.flatMap_nil, List.length_nil]
      omega
    · rw [if_neg last]
      refine ⟨true, _, rfl, rfl, (fun more => by cases more), fun _ => ⟨⟨valid.sizes, fun _ _ =>
        Nat.zero_le _⟩, ?_, Nat.le_succ _, fun _ => rfl⟩⟩
      have taken : bufv.buf.take (bufv.idx + 1) = front ++ [b] := by
        rw [parts]
        simp only
        rw [List.take_length_add_append]
        rfl
      rw [place, taken, parts, place_parts]
      simp only [List.flatMap_append, List.length_append, List.flatMap_cons, List.flatMap_nil,
        List.append_nil, FuseBuf.bytes_length]
      omega
  · rw [if_pos done]
    refine ⟨true, _, rfl, rfl, (fun more => by cases more), fun _ => ⟨⟨valid.sizes,
      fun other same => ?_⟩, (Nat.add_assoc _ _ _).symm, Nat.le_refl _,
      fun finished => absurd finished done⟩⟩
    cases here.symm.trans same
    exact room

/-- What a copy into the current buffer does to the whole. -/
theorem whole_store {bytes : Bytes} (here : bufv.current = some b)
    (room : bufv.off + bytes.length ≤ b.size) :
    (bufv.store b (b.mem.write bufv.off bytes)).whole = overwrite bufv.place bytes bufv.whole := by
  obtain ⟨front, back, parts⟩ := exists_parts here
  have stored : bufv.store b (b.mem.write bufv.off bytes) = ⟨front.length, bufv.off,
      front ++ { b with mem := b.mem.write bufv.off bytes } :: back⟩ := by
    rw [store, parts]
    simp only [List.set_append_right _ _ (Nat.le_refl _), Nat.sub_self, List.set_cons_zero]
  have inside : bufv.off + bytes.length ≤ b.bytes.length := by
    rwa [FuseBuf.bytes_length]
  rw [stored, whole_parts]
  conv => rhs; rw [parts, whole_parts, place_parts, overwrite_append inside]
  rw [FuseBuf.bytes, bytesAt_overwrite room]
  rfl

theorem Valid.store {mem : Memory} (valid : bufv.Valid) (here : bufv.current = some b) :
    (bufv.store b mem).Valid ∧ (bufv.store b mem).current = some { b with mem := mem } := by
  obtain ⟨bound, same⟩ := List.getElem?_eq_some_iff.mp here
  have current : (bufv.store b mem).current = some { b with mem := mem } := by
    rw [current, FuseBufvec.store]
    exact List.getElem?_set_self bound
  refine ⟨⟨fun other member => ?_, fun other same => ?_⟩, current⟩
  · rcases List.mem_or_eq_of_mem_set member with old | rfl
    · exact valid.sizes other old
    · exact valid.sizes b (List.mem_of_getElem? here)
  · cases current.symm.trans same
    exact valid.inside b here

theorem sizes_store {mem : Memory} (here : bufv.current = some b) :
    (bufv.store b mem).buf.map FuseBuf.size = bufv.buf.map FuseBuf.size := by
  obtain ⟨front, back, parts⟩ := exists_parts here
  rw [store, parts]
  simp only [List.set_append_right _ _ (Nat.le_refl _), Nat.sub_self, List.set_cons_zero,
    List.map_append, List.map_cons]

/-- The current buffer is a part of the whole. -/
theorem inside_whole (valid : bufv.Valid) (here : bufv.current = some b) :
    bufv.place + (b.size - bufv.off) ≤ bufv.whole.length := by
  have inside := valid.inside b here
  obtain ⟨front, back, parts⟩ := exists_parts here
  rw [parts, whole_parts, place_parts]
  simp only [List.length_append, FuseBuf.bytes_length]
  omega

theorem place_store {mem : Memory} : (bufv.store b mem).place = bufv.place := by
  rw [place, place, store]
  simp only [List.take_set_of_le (Nat.le_refl _)]

/-- A vector that has taken a piece goes on behind it. -/
theorem advance_store {bytes : Bytes} (valid : bufv.Valid) (here : bufv.current = some b)
    (room : bufv.off + bytes.length ≤ b.size) : ∃ more next,
      (bufv.store b (b.mem.write bufv.off bytes)).advance bytes.length = some (more, next) ∧
        next.whole = overwrite bufv.place bytes bufv.whole ∧
        next.buf.map FuseBuf.size = bufv.buf.map FuseBuf.size ∧
        (more = false → bufv.whole.length = bufv.place + bytes.length) ∧
        (more = true → next.Valid ∧ next.place = bufv.place + bytes.length ∧
          bufv.idx ≤ next.idx ∧ (bufv.off + bytes.length = b.size → next.idx = bufv.idx + 1)) := by
  have filled := whole_store here room
  have place := @place_store bufv b (b.mem.write bufv.off bytes)
  have inside : bufv.place + bytes.length ≤ bufv.whole.length := by
    have part := inside_whole valid here
    omega
  obtain ⟨stored, current⟩ := @Valid.store bufv b (b.mem.write bufv.off bytes) valid here
  obtain ⟨more, next, goes, same, ended, went⟩ := advance_spec stored current room
  rw [filled, place, overwrite_length inside] at ended
  rw [place] at went
  refine ⟨more, next, goes, ?_, ?_, ended, went⟩
  · rw [whole, same]
    exact filled
  · rw [same, sizes_store here]

end FuseBufvec

/-! ## Copies -/

section Copies

variable {mem : Memory} {dstOff len copied : Nat} {host : List ReadAnswer} {retry : Bool}

/-- Bytes that are copied behind each other are copied as one. -/
theorem write_write {first second : Bytes} :
    (mem.write dstOff first).write (dstOff + first.length) second =
      mem.write dstOff (first ++ second) := by
  funext a
  unfold Memory.write
  by_cases behind : dstOff + first.length ≤ a
  · rw [if_pos behind, if_pos (by omega), if_pos (by omega),
      List.getElem?_append_right (by omega), List.getElem?_eq_none (l := first) (by omega),
      Option.getD_none, Nat.sub_add_eq]
  · rw [if_neg behind]
    split
    · rw [List.getElem?_append_left (by omega)]
    · rfl

theorem write_nil : mem.write dstOff [] = mem := by
  funext a
  unfold Memory.write
  split
  · rfl
  · rfl

/-- What `fuse_buf_read` has read stands in the buffer. -/
theorem fuseBufRead_spec : ∃ res given rest,
    fuseBufRead retry host mem dstOff len copied = (res, mem.write dstOff given, rest) ∧
      given.length ≤ len ∧ (copied = 0 ∧ given = [] ∧ res < 0 ∨ res = copied + given.length) := by
  induction host generalizing mem dstOff len copied with
  | nil =>
      refine ⟨copied, [], [], ?_, Nat.zero_le _, .inr (by simp)⟩
      rw [fuseBufRead, write_nil]
  | cons answer host ih =>
      rw [fuseBufRead.eq_def]
      dsimp only
      by_cases done : len = 0
      · rw [if_pos done]
        exact ⟨copied, [], _, by rw [write_nil], Nat.zero_le _, .inr (by simp)⟩
      · rw [if_neg done]
        cases answer with
        | error errno =>
            refine ⟨_, [], host, by rw [write_nil], Nat.zero_le _, ?_⟩
            have positive := errno.positive
            split
            · next zero => exact .inl ⟨zero, rfl, by omega⟩
            · exact .inr (by simp)
        | ok given =>
            simp only
            have short : (given.take len).length ≤ len := List.length_take_le _ _
            split
            · exact ⟨copied, [], host, by rw [write_nil], Nat.zero_le _, .inr (by simp)⟩
            · next some' =>
                split
                · exact ⟨_, given.take len, host, rfl, short, .inr rfl⟩
                · obtain ⟨res, later, rest, reads, fits, outcome⟩ :=
                    @ih (mem.write dstOff (given.take len)) (dstOff + (given.take len).length)
                      (len - (given.take len).length) (copied + (given.take len).length)
                  have positive := List.length_pos_of_ne_nil some'
                  refine ⟨res, given.take len ++ later, rest, ?_, ?_, ?_⟩
                  · rw [reads, write_write]
                  · rw [List.length_append]
                    omega
                  · rcases outcome with ⟨zero, _⟩ | total
                    · omega
                    · refine .inr ?_
                      rw [total, List.length_append]
                      omega

variable {dst src : FuseBuf} {srcOff : Nat}

/-- A copy between two buffers gives some bytes, at once all of them if both are in memory. -/
theorem fuseBufCopyOne_spec (inside : dstOff + len ≤ dst.size) (inside' : srcOff + len ≤ src.size) :
    ∃ res given rest, fuseBufCopyOne dst dstOff src srcOff len host =
        some (res, dst.mem.write dstOff given, rest) ∧ given.length ≤ len ∧
      (given = [] ∧ res < 0 ∨ res = given.length) ∧
      (src.isFd = false → res = len ∧ given = (src.bytes.drop srcOff).take len) := by
  unfold fuseBufCopyOne
  rw [if_neg (Nat.not_lt_of_ge inside)]
  by_cases fd : src.isFd = true
  · rw [if_pos fd]
    obtain ⟨res, given, rest, reads, fits, outcome⟩ :=
      @fuseBufRead_spec dst.mem dstOff len 0 host src.retry
    refine ⟨res, given, rest, congrArg some reads, fits, ?_, fun memory => ?_⟩
    · rcases outcome with ⟨_, empty, negative⟩ | total
      · exact .inl ⟨empty, negative⟩
      · exact .inr (by omega)
    · exact absurd (fd.symm.trans memory) (by decide)
  · rw [if_neg fd, if_neg (Nat.not_lt_of_ge inside')]
    refine ⟨len, _, host, rfl, ?_, .inr ?_, fun _ => ⟨rfl, ?_⟩⟩
    · rw [Memory.bytesAt_length]
    · rw [Memory.bytesAt_length]
    · obtain ⟨more, whole⟩ := Nat.exists_eq_add_of_le inside'
      have lower : (src.mem.bytesAt 0 srcOff).length = srcOff := Memory.bytesAt_length _
      have middle : (src.mem.bytesAt srcOff len).length = len := Memory.bytesAt_length _
      rw [FuseBuf.bytes, whole, Memory.bytesAt_add, Memory.bytesAt_add, Nat.zero_add,
        List.append_assoc, List.drop_left' lower, List.take_left' middle]

/-- The buffers of a vector are in memory. -/
def FuseBufvec.InMemory (bufv : FuseBufvec) : Prop := ∀ b ∈ bufv.buf, b.isFd = false

/-- What a copy has done: it has put some bytes where the destination stood, or has failed
and put none. -/
structure CopyDone (dstv srcv : FuseBufvec) (copied : Nat) (res : Int) (after : FuseBufvec)
    (given : Bytes) : Prop where
  whole : after.whole = overwrite dstv.place given dstv.whole
  sizes : after.buf.map FuseBuf.size = dstv.buf.map FuseBuf.size
  fits : given.length ≤ dstv.pending.length
  result : copied = 0 ∧ given = [] ∧ res < 0 ∨ res = copied + given.length
  exact : srcv.InMemory → res = copied + given.length ∧
    given = srcv.pending.take dstv.pending.length

theorem CopyDone.nothing {dstv srcv : FuseBufvec} (copied : Nat)
    (ended : srcv.pending = [] ∨ dstv.pending = []) : CopyDone dstv srcv copied copied dstv [] where
  whole := overwrite_nil.symm
  sizes := rfl
  fits := Nat.zero_le _
  result := .inr (by simp)
  exact := by
    intro _
    refine ⟨by simp, ?_⟩
    rcases ended with empty | empty
    · rw [empty, List.take_nil]
    · rw [empty, List.length_nil, List.take_zero]

/-- The last piece. -/
theorem CopyDone.last {dstv srcv after : FuseBufvec} {copied : Nat} {given : Bytes}
    (whole : after.whole = overwrite dstv.place given dstv.whole)
    (sizes : after.buf.map FuseBuf.size = dstv.buf.map FuseBuf.size)
    (inside : dstv.place + given.length ≤ dstv.whole.length)
    (taken : srcv.InMemory → given = srcv.pending.take dstv.pending.length) :
    CopyDone dstv srcv copied ((copied + given.length : Nat) : Int) after given where
  whole := whole
  sizes := sizes
  fits := by
    rw [FuseBufvec.pending_length]
    omega
  result := .inr (Int.natCast_add _ _)
  exact := fun memory => ⟨Int.natCast_add _ _, taken memory⟩

/-- A piece and what is copied behind it. -/
theorem CopyDone.behind {dstv srcv dstv' srcv' after : FuseBufvec} {copied : Nat} {res : Int}
    {first given : Bytes} (rest : CopyDone dstv' srcv' (copied + first.length) res after given)
    (whole : dstv'.whole = overwrite dstv.place first dstv.whole)
    (place : dstv'.place = dstv.place + first.length)
    (sizes : dstv'.buf.map FuseBuf.size = dstv.buf.map FuseBuf.size)
    (inside : dstv.place + first.length ≤ dstv.whole.length) (buf : srcv'.buf = srcv.buf)
    (gone : srcv'.place = srcv.place + first.length)
    (taken : srcv.InMemory → first = srcv.pending.take first.length) :
    CopyDone dstv srcv copied res after (first ++ given) := by
  have room := dstv.pending_length
  have room' := dstv'.pending_length
  have fits := rest.fits
  rw [room', whole, overwrite_length inside, place] at fits
  refine ⟨?_, rest.sizes.trans sizes, ?_, ?_, fun memory => ?_⟩
  · rw [rest.whole, whole, place, overwrite_overwrite inside]
  · rw [List.length_append]
    omega
  · rw [List.length_append]
    rcases rest.result with ⟨zero, empty, negative⟩ | total
    · refine .inl ⟨by omega, ?_, negative⟩
      rw [empty, List.append_nil]
      exact List.eq_nil_of_length_eq_zero (by omega)
    · exact .inr (by omega)
  · obtain ⟨total, later⟩ := rest.exact fun b member => memory b (buf ▸ member)
    have pending : srcv'.pending = srcv.pending.drop first.length := by
      rw [FuseBufvec.pending, FuseBufvec.whole, buf, gone, FuseBufvec.pending, List.drop_drop,
        FuseBufvec.whole]
    refine ⟨by rw [List.length_append]; omega, ?_⟩
    have split : dstv.pending.length = first.length + dstv'.pending.length := by
      rw [room', whole, overwrite_length inside, place]
      omega
    rw [split, List.take_add, ← taken memory, ← pending, ← later]

/-- The loop copies piece by piece to the end of one of the vectors. -/
theorem copyWithin_spec {rounds : Nat} {dstv srcv : FuseBufvec} (dst : dstv.Valid)
    (src : srcv.Valid)
    (enough : (dstv.buf.length - dstv.idx) + (srcv.buf.length - srcv.idx) < rounds) :
    ∃ res after read rest given,
      copyWithin rounds dstv srcv copied host = some (res, after, read, rest) ∧
        CopyDone dstv srcv copied res after given := by
  induction rounds generalizing dstv srcv copied host with
  | zero => exact absurd enough (Nat.not_lt_zero _)
  | succ rounds ih =>
      cases here : srcv.current with
      | none =>
          refine ⟨copied, dstv, srcv, host, [], by rw [copyWithin, here], ?_⟩
          exact CopyDone.nothing copied (.inl (FuseBufvec.pending_of_current_none here))
      | some s =>
          cases there : dstv.current with
          | none =>
              refine ⟨copied, dstv, srcv, host, [], by rw [copyWithin, here, there], ?_⟩
              exact CopyDone.nothing copied (.inr (FuseBufvec.pending_of_current_none there))
          | some d =>
              have start := src.inside s here
              have start' := dst.inside d there
              have bound := (List.getElem?_eq_some_iff.mp here).1
              have bound' := (List.getElem?_eq_some_iff.mp there).1
              have whole := FuseBufvec.inside_whole dst there
              obtain ⟨later, pending⟩ := FuseBufvec.pending_eq src here
              rw [copyWithin, here, there]
              simp only [src.left_eq here, dst.left_eq there]
              generalize length : min (s.size - srcv.off) (d.size - dstv.off) = len
              obtain ⟨res, first, rest, copies, fits, outcome, memory⟩ :=
                @fuseBufCopyOne_spec dstv.off len host d s srcv.off (by omega) (by omega)
              have taken : srcv.InMemory → res = len ∧ first = srcv.pending.take len := by
                intro all
                obtain ⟨full, piece⟩ := memory (all s (List.mem_of_getElem? here))
                refine ⟨full, ?_⟩
                rw [pending, List.take_append_of_le_length (by
                  rw [List.length_drop, FuseBuf.bytes_length]; omega), piece]
              have sizes := @FuseBufvec.sizes_store dstv d (d.mem.write dstv.off first) there
              have filled := @FuseBufvec.whole_store dstv d first there (by omega)
              have inside : dstv.place + first.length ≤ dstv.whole.length := by omega
              simp only [copies, Option.bind_eq_bind, Option.bind_some]
              rcases outcome with ⟨rfl, negative⟩ | total
              · rw [if_pos negative]
                refine ⟨_, _, _, _, [], rfl, filled, sizes, Nat.zero_le _, ?_, fun all => ?_⟩
                · split
                  · next zero => exact .inl ⟨zero, rfl, negative⟩
                  · exact .inr (by simp)
                · have full := (taken all).1
                  omega
              have count : res.toNat = first.length := by omega
              rw [if_neg (by omega), count]
              obtain ⟨more, next, goes, same, ended, went⟩ :=
                @FuseBufvec.advance_spec srcv s first.length src here (by omega)
              simp only [goes, Option.bind_some]
              cases more with
              | false =>
                  rw [if_pos rfl]
                  refine ⟨_, _, _, _, first, rfl, .last filled sizes inside fun all => ?_⟩
                  obtain ⟨full, piece⟩ := taken all
                  have room : first.length ≤ dstv.pending.length := by
                    rw [FuseBufvec.pending_length]
                    omega
                  have short : srcv.pending.length = first.length := by
                    rw [FuseBufvec.pending_length, ended rfl]
                    omega
                  rw [List.take_of_length_le (by omega)] at piece
                  rw [List.take_of_length_le (by omega), piece]
              | true =>
                  rw [if_neg (by decide)]
                  obtain ⟨valid, gone, forward, finished⟩ := went rfl
                  obtain ⟨more, next', goes', whole', sizes', ended', went'⟩ :=
                    @FuseBufvec.advance_store dstv d first dst there (by omega)
                  have many := congrArg List.length sizes'
                  rw [List.length_map, List.length_map] at many
                  simp only [goes', Option.bind_some]
                  by_cases stops : more = false ∨ res < len
                  · rw [if_pos stops]
                    refine ⟨_, next', _, _, first, rfl, .last whole' sizes' inside fun all => ?_⟩
                    obtain ⟨full, piece⟩ := taken all
                    rcases stops with last | short
                    · have exactly : dstv.pending.length = len := by
                        rw [FuseBufvec.pending_length, ended' last]
                        omega
                      rw [exactly, piece]
                    · omega
                  · rw [if_neg stops]
                    rw [not_or] at stops
                    obtain ⟨valid', gone', forward', finished'⟩ := went' (by simpa using stops.1)
                    obtain ⟨res', after, read, rest', given, loops, done⟩ :=
                      @ih (copied + first.length) rest next' next valid' valid (by
                        rw [many, same]
                        omega)
                    refine ⟨res', after, read, rest', first ++ given, loops, done.behind whole'
                      gone' sizes' inside same gone fun all => ?_⟩
                    obtain ⟨full, piece⟩ := taken all
                    have length : first.length = len := by omega
                    rw [length]
                    exact piece

end Copies

/-! ## Results -/

section Results

variable {dstv srcv bufv : FuseBufvec} {host : List ReadAnswer} {granted : Option Memory}

theorem fuseBufCopy_spec (dst : dstv.Valid) (src : srcv.Valid) : ∃ res after read rest given,
    fuseBufCopy dstv srcv host = some (res, after, read, rest) ∧
      CopyDone dstv srcv 0 res after given :=
  copyWithin_spec dst src (by omega)

/-- A copy to buffers that share no memory with the source never leaves a buffer and no
assertion fails. It writes where the destination stands and nowhere else, or fails and writes
nothing; from buffers in memory it copies all that there is, or all that there is room for. -/
theorem copy_exact (dst : dstv.Valid) (src : srcv.Valid) : ∃ res after read rest given,
    fuseBufCopy dstv srcv host = some (res, after, read, rest) ∧
      after.whole = overwrite dstv.place given dstv.whole ∧
      given.length ≤ dstv.pending.length ∧ (given = [] ∧ res < 0 ∨ res = given.length) ∧
      (srcv.InMemory → res = given.length ∧ given = srcv.pending.take dstv.pending.length) := by
  obtain ⟨res, after, read, rest, given, copies, done⟩ := @fuseBufCopy_spec dstv srcv host dst src
  refine ⟨res, after, read, rest, given, copies, done.whole, done.fits, ?_, fun memory => ?_⟩
  · rcases done.result with ⟨_, empty, negative⟩ | total
    · exact .inl ⟨empty, negative⟩
    · exact .inr (by omega)
  · obtain ⟨total, taken⟩ := done.exact memory
    exact ⟨by omega, taken⟩

/-- A memory that begins with some bytes. -/
def memoryOf (bytes : Bytes) : Memory := fun a => bytes[a]?.getD 0

/-- `ab` and `c` -/
def twoBuffers : FuseBufvec :=
  ⟨0, 0, [⟨2, false, false, memoryOf (ascii "ab")⟩, ⟨1, false, false, memoryOf (ascii "c")⟩]⟩

theorem whole_twoBuffers : twoBuffers.whole = ascii "abc" := by decide

theorem valid_twoBuffers : twoBuffers.Valid where
  sizes := by
    simp [twoBuffers]
  inside := fun _ _ => Nat.zero_le _

theorem inMemory_twoBuffers : twoBuffers.InMemory := by
  simp [twoBuffers, FuseBufvec.InMemory]

theorem valid_init {size : Nat} {mem : Memory} (small : size < 2 ^ 64) :
    (fuseBufvecInit size mem).Valid where
  sizes := fun b member => by
    obtain rfl := List.mem_singleton.mp member
    exact small
  inside := fun _ _ => Nat.zero_le _

theorem copy_exact_twoBuffers : ∃ after read rest,
    fuseBufCopy (fuseBufvecInit 4 (memoryOf (ascii "wxyz"))) twoBuffers [] =
        some (3, after, read, rest) ∧ after.whole = ascii "abcz" := by
  obtain ⟨res, after, read, rest, given, copies, whole, _, _, memory⟩ :=
    @copy_exact (fuseBufvecInit 4 (memoryOf (ascii "wxyz"))) twoBuffers [] (valid_init (by decide))
      valid_twoBuffers
  obtain ⟨rfl, taken⟩ := memory inMemory_twoBuffers
  have all : given = ascii "abc" := taken.trans (by decide)
  subst all
  exact ⟨after, read, rest, copies, whole.trans (by decide)⟩

theorem fuseBufSize_eq (small : bufv.whole.length < 2 ^ 31) :
    fuseBufSize bufv = bufv.whole.length := by
  have sums : ∀ (buf : List FuseBuf) (size : Nat),
      size + (buf.flatMap FuseBuf.bytes).length < 2 ^ 31 →
      buf.foldl (fun size b => if b.size = sizeMax then sizeMax else (size + b.size) % 2 ^ 64) size =
        size + (buf.flatMap FuseBuf.bytes).length := by
    intro buf
    induction buf with
    | nil => exact fun _ _ => rfl
    | cons b buf ih =>
        intro size small
        rw [List.flatMap_cons, List.length_append, FuseBuf.bytes_length] at small
        have next : (size + b.size) % 2 ^ 64 = size + b.size := Nat.mod_eq_of_lt (by omega)
        rw [List.foldl_cons, if_neg (by unfold sizeMax; omega), next, ih _ (by omega),
          List.flatMap_cons, List.length_append, FuseBuf.bytes_length, Nat.add_assoc]
  have total := sums bufv.buf 0 (by rw [Nat.zero_add]; exact small)
  rwa [Nat.zero_add] at total

/-- A request in memory is put together in one buffer. -/
theorem gathered {size : Nat} {mem : Memory} (valid : bufv.Valid) (idx : bufv.idx = 0)
    (off : bufv.off = 0) (memory : bufv.InMemory) (exactly : size = bufv.whole.length)
    (small : size < 2 ^ 64) : ∃ flat read rest, ∃ b : FuseBuf,
      fuseBufCopy (fuseBufvecInit size mem) bufv host = some ((size : Int), flat, read, rest) ∧
        flat.buf = [b] ∧ b.bytes = bufv.whole := by
  obtain ⟨res, flat, read, rest, given, copies, done⟩ :=
    @fuseBufCopy_spec (fuseBufvecInit size mem) bufv host (valid_init small) valid
  have start : (fuseBufvecInit size mem).place = 0 := rfl
  have width : (fuseBufvecInit size mem).whole.length = size := by
    simp [fuseBufvecInit, FuseBufvec.whole]
  have place : bufv.place = 0 := by
    rw [FuseBufvec.place, idx, off]
    rfl
  have pending : bufv.pending = bufv.whole := by
    rw [FuseBufvec.pending, place, List.drop_zero]
  obtain ⟨total, taken⟩ := done.exact memory
  rw [pending, FuseBufvec.pending_length, start, width, Nat.sub_zero, exactly,
    List.take_length] at taken
  have result : res = size := by
    rw [total, taken, exactly]
    omega
  obtain ⟨b, single⟩ := List.length_eq_one_iff.mp
    ((List.length_map FuseBuf.size).symm.trans (congrArg List.length done.sizes))
  refine ⟨flat, read, rest, b, by rw [copies, result], single, ?_⟩
  have whole := done.whole
  rw [FuseBufvec.whole, single, List.flatMap_singleton, start, taken, overwrite, List.take_zero,
    List.nil_append, List.drop_eq_nil_of_le (by omega), List.append_nil] at whole
  exact whole

theorem copiedBuf_eq {copied : Int} {flat : FuseBufvec} {b : FuseBuf} {n : Nat}
    (res : toInt copied = n) (single : flat.buf = [b]) :
    copiedBuf copied flat = if n = 0 then some (.error 0) else some (.ok (b.mem, n)) := by
  rw [copiedBuf, res, single]
  by_cases zero : n = 0
  · rw [if_pos zero, if_pos (by omega), zero]
    rfl
  · rw [if_neg zero, if_neg (by omega)]
    rfl

theorem flatBuf_spec (valid : bufv.Valid) (idx : bufv.idx = 0) (off : bufv.off = 0)
    (memory : bufv.InMemory) (small : bufv.whole.length < 2 ^ 31) :
    (∃ mem : Memory, flatBuf bufv granted host = some (.ok (mem, bufv.whole.length)) ∧
        mem.bytesAt 0 bufv.whole.length = bufv.whole) ∨
      bufv.buf.length ≠ 1 ∧
        (granted = none ∧ flatBuf bufv granted host = some (.error ENOMEM) ∨
          bufv.whole = [] ∧ flatBuf bufv granted host = some (.error 0)) := by
  unfold flatBuf
  rw [if_neg (by simp [idx, off])]
  split
  · next size _ mem single =>
      have whole : bufv.whole = mem.bytesAt 0 size := by
        rw [FuseBufvec.whole, single, List.flatMap_singleton]
        rfl
      refine .inl ⟨mem, ?_, ?_⟩
      · rw [whole, Memory.bytesAt_length]
      · rw [whole, Memory.bytesAt_length]
  · next several =>
      have many : bufv.buf.length ≠ 1 := by
        intro one
        obtain ⟨⟨size, isFd, retry, mem⟩, single⟩ := List.length_eq_one_iff.mp one
        have inside := memory _ (single ▸ List.mem_singleton_self _)
        simp only at inside
        exact several size retry mem (inside ▸ single)
      cases granted with
      | none => exact .inr ⟨many, .inl ⟨rfl, rfl⟩⟩
      | some mem =>
          obtain ⟨flat, read, rest, b, copies, single, whole⟩ :=
            @gathered bufv host (fuseBufSize bufv) mem valid idx off memory (fuseBufSize_eq small)
              ((fuseBufSize_eq small).trans_lt (small.trans (by decide)))
          have res : toInt (fuseBufSize bufv : Int) = bufv.whole.length := by
            rw [fuseBufSize_eq small]
            exact toInt_of_small (by omega) (by omega)
          have flattened := copiedBuf_eq res single
          generalize fuseBufSize bufv = size at copies flattened ⊢
          dsimp only
          rw [copies, Option.bind_some]
          dsimp only
          rw [flattened]
          by_cases empty : bufv.whole = []
          · refine .inr ⟨many, .inr ⟨empty, ?_⟩⟩
            rw [empty, List.length_nil, if_pos rfl]
          · have positive := List.length_pos_of_ne_nil empty
            have width : b.size = bufv.whole.length := by
              rw [← whole, FuseBuf.bytes_length]
            rw [if_neg (by omega)]
            refine .inl ⟨b.mem, rfl, ?_⟩
            rw [← width]
            exact whole

/-- However many buffers the data of a request comes in, `nosqlFS_write` gets it in one piece and
complete, or there is no memory for it, or there is no data. -/
theorem write_gathered (path : Bytes) (address : Nat) (offset : Int) (fi : Pointer FuseFileInfo)
    (valid : bufv.Valid) (idx : bufv.idx = 0) (off : bufv.off = 0) (memory : bufv.InMemory)
    (small : bufv.whole.length < 2 ^ 31) :
    fuseFsWriteBuf (writeOperation path address offset fi) bufv granted host =
        some (.ok (nosqlFSWrite path ⟨address, bufv.whole⟩ bufv.whole.length offset fi)) ∨
      bufv.buf.length ≠ 1 ∧ (granted = none ∧
          fuseFsWriteBuf (writeOperation path address offset fi) bufv granted host =
            some (.error ENOMEM) ∨
        bufv.whole = [] ∧ fuseFsWriteBuf (writeOperation path address offset fi) bufv granted host =
            some (.error 0)) := by
  unfold fuseFsWriteBuf
  rcases @flatBuf_spec bufv host granted valid idx off memory small with
    ⟨mem, flat, whole⟩ | ⟨many, ⟨none, failed⟩ | ⟨empty, nothing⟩⟩
  · refine .inl ?_
    rw [flat]
    simp only [writeOperation, whole]
  · exact .inr ⟨many, .inl ⟨none, by rw [failed]⟩⟩
  · exact .inr ⟨many, .inr ⟨empty, by rw [nothing]⟩⟩

theorem write_gathered_twoBuffers :
    fuseFsWriteBuf (writeOperation (ascii "/a") 4096 0 ⟨16, ⟨0, 0, 0, 0, 0, 0⟩⟩) twoBuffers
        (some (memoryOf [])) [] =
      some (.ok (nosqlFSWrite (ascii "/a") ⟨4096, ascii "abc"⟩ 3 0 ⟨16, ⟨0, 0, 0, 0, 0, 0⟩⟩)) := by
  have outcome := @write_gathered twoBuffers [] (some (memoryOf [])) (ascii "/a") 4096 0
    ⟨16, ⟨0, 0, 0, 0, 0, 0⟩⟩ valid_twoBuffers rfl rfl inMemory_twoBuffers (by decide)
  rw [whole_twoBuffers] at outcome
  rcases outcome with whole | ⟨_, ⟨none, _⟩ | ⟨empty, _⟩⟩
  · exact whole
  · cases none
  · cases empty

end Results

end Libfuse

end NosqlFS
