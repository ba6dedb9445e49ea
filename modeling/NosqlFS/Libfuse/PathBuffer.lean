import NosqlFS.Libfuse.Paths

/-!
# The buffer of a path

However long the names are, no byte is written outside the buffer, and the buffer holds
the names with a slash before each.
-/

namespace NosqlFS

namespace Libfuse

open Text

namespace PathBuffer

variable {buffer : PathBuffer} {text name : Bytes} {granted : Option Memory} {memory : Memory}

/-- The buffer ends with a text and its end. -/
structure Holds (buffer : PathBuffer) (text : Bytes) : Prop where
  fits : buffer.start + text.length + 1 = buffer.size
  bytes : buffer.memory.bytesAt buffer.start (text.length + 1) = text ++ [0]
  least : 256 ≤ buffer.size
  most : buffer.size ≤ 0xffffffff

theorem holds_empty : (empty memory).Holds [] where
  fits := rfl
  bytes := @Memory.bytesAt_write memory 255 [0]
  least := Nat.le_refl 256
  most := (by decide : 256 ≤ 0xffffffff)

/-- A buffer of at least one byte is doubled until there is room. -/
theorem enlarge_spec {needed : Nat} (room : needed ≤ 0xffffffff) (rounds : Nat) :
    ∀ size, 2 ^ 31 ≤ size * 2 ^ rounds → size ≤ 0xffffffff →
      ∃ larger, enlarge (rounds + 2) size needed = some larger ∧ needed ≤ larger ∧
        size ≤ larger ∧ larger ≤ 0xffffffff := by
  have capped : ∀ rounds, enlarge (rounds + 1) 0xffffffff needed = some 0xffffffff := fun rounds => by
    rw [enlarge, if_neg (Nat.not_lt.mpr room)]
  induction rounds with
  | zero =>
      intro size large small
      rw [pow_zero, Nat.mul_one] at large
      rw [enlarge]
      split
      · rw [if_pos (by omega), capped]
        exact ⟨_, rfl, room, small, Nat.le_refl _⟩
      · exact ⟨size, rfl, by omega, Nat.le_refl _, small⟩
  | succ rounds ih =>
      intro size large small
      rw [enlarge]
      split
      · split
        · rw [capped]
          exact ⟨_, rfl, room, small, Nat.le_refl _⟩
        · obtain ⟨larger, found, enough, grown, bounded⟩ := ih (size * 2)
            (by rw [Nat.mul_assoc, Nat.mul_comm 2, ← pow_succ]; exact large) (by omega)
          exact ⟨larger, found, enough, by omega, bounded⟩
      · exact ⟨size, rfl, by omega, Nat.le_refl _, small⟩

/-- The name and the slash are written in front of the text. -/
theorem put_spec (holds : buffer.Holds text) (room : name.length + 1 ≤ buffer.start) :
    ∃ longer, buffer.put name = some longer ∧ longer.Holds (ascii "/" ++ name ++ text) := by
  have fits := holds.fits
  have length : (ascii "/" ++ name ++ text).length = 1 + name.length + text.length := by
    rw [List.length_append, List.length_append]
    rfl
  unfold put
  rw [if_neg (Nat.not_lt.mpr room)]
  refine ⟨_, rfl, ?_, ?_, holds.least, holds.most⟩
  · rw [length]
    simp only
    omega
  · set named := buffer.memory.write (buffer.start - name.length) name with put
    have slash : (named.write (buffer.start - name.length - 1) (ascii "/")).bytesAt
        (buffer.start - name.length - 1) 1 = ascii "/" :=
      @Memory.bytesAt_write named (buffer.start - name.length - 1) (ascii "/")
    have behind : ∀ len, (named.write (buffer.start - name.length - 1) (ascii "/")).bytesAt
        (buffer.start - name.length - 1 + 1) len = named.bytesAt (buffer.start - name.length) len :=
      fun len => by
        rw [Memory.bytesAt_write_before
          (show _ + (ascii "/").length ≤ buffer.start - name.length - 1 + 1 from Nat.le_refl _)]
        congr 1
        omega
    have there : named.bytesAt (buffer.start - name.length) name.length = name :=
      Memory.bytesAt_write
    have rest : named.bytesAt (buffer.start - name.length + name.length) (text.length + 1) =
        text ++ [0] := by
      rw [Memory.bytesAt_write_before (Nat.le_refl _), ← holds.bytes]
      congr 1
      omega
    simp only
    rw [length, show 1 + name.length + text.length + 1 = 1 + (name.length + (text.length + 1)) by
      omega, Memory.bytesAt_add, slash, behind, Memory.bytesAt_add, there, rest]
    simp only [List.append_assoc]

/-- The buffer that has been enlarged holds the same text at its end. -/
theorem holds_enlarged (holds : buffer.Holds text) {fresh : Memory} {size : Nat}
    (larger : buffer.size ≤ size) (bounded : size ≤ 0xffffffff) :
    let memory := extend buffer.memory buffer.size fresh
    (⟨memory.write (size - (text.length + 1)) (memory.bytesAt (buffer.size - (text.length + 1))
      (text.length + 1)), size, size - (text.length + 1)⟩ : PathBuffer).Holds text := by
  have fits := holds.fits
  intro memory
  have old : memory.bytesAt (buffer.size - (text.length + 1)) (text.length + 1) = text ++ [0] := by
    rw [← holds.bytes]
    refine List.map_congr_left fun i inside => ?_
    have inside := List.mem_range.mp inside
    change (if _ < buffer.size then _ else _) = _
    rw [if_pos (by omega)]
    congr 1
    omega
  refine ⟨?_, ?_, holds.least.trans larger, bounded⟩
  · simp only
    omega
  · simp only
    rw [old]
    have length : (text ++ [0]).length = text.length + 1 := by rw [List.length_append]; rfl
    rw [← length]
    exact Memory.bytesAt_write

/-- A name is added, unless the buffer has to be enlarged and cannot be. -/
theorem addName_spec (holds : buffer.Holds text)
    (room : text.length + name.length + 2 ≤ 0xffffffff) :
    granted = none ∧ buffer.addName granted name = some none ∨ ∃ longer,
      buffer.addName granted name = some (some longer) ∧
        longer.Holds (ascii "/" ++ name ++ text) := by
  have fits := holds.fits
  have least := holds.least
  unfold addName
  split
  · have used : buffer.size - buffer.start = text.length + 1 := by omega
    obtain ⟨larger, found, enough, grown, bounded⟩ := enlarge_spec
      (show text.length + 1 + name.length + 1 ≤ 0xffffffff by omega) 32 buffer.size
      (by omega) holds.most
    simp only [used, found, Option.bind_eq_bind, Option.bind_some]
    cases granted with
    | none => exact .inl ⟨rfl, rfl⟩
    | some fresh =>
        obtain ⟨longer, put, holds'⟩ := @put_spec _ text name
          (@holds_enlarged buffer text holds fresh larger grown bounded) (by simp only; omega)
        refine .inr ⟨longer, ?_, holds'⟩
        simp only [put, Option.bind_some]
        rfl
  · obtain ⟨longer, put, holds'⟩ := @put_spec buffer text name holds (by omega)
    refine .inr ⟨longer, ?_, holds'⟩
    rw [put]
    rfl

/-- The path at the front of the buffer; the empty path is a slash. -/
theorem finish_spec (holds : buffer.Holds text) (first : ∀ byte ∈ text.head?, byte ≠ 0) :
    buffer.finish = (if text = [] then ascii "/" else text) ++ [0] := by
  have fits := holds.fits
  have bytes := holds.bytes
  have used : buffer.size - buffer.start = text.length + 1 := by omega
  have start := congrArg List.head? bytes
  rw [Memory.bytesAt, List.range_succ_eq_map, List.map_cons, List.head?_cons, Nat.add_zero] at start
  unfold finish
  cases text with
  | nil =>
      rw [if_pos (Option.some.inj start), if_pos rfl]
  | cons byte rest =>
      have begins : buffer.memory buffer.start = byte := Option.some.inj start
      rw [if_neg (by rw [begins]; exact first byte rfl), if_neg (List.cons_ne_nil _ _), used, bytes]
      have length : (byte :: rest ++ [0]).length = (byte :: rest).length + 1 := by
        rw [List.length_append]
        rfl
      rw [← length]
      exact Memory.bytesAt_write

end PathBuffer

end Libfuse

end NosqlFS
