import NosqlFS.Text.Printf

/-!
# Byte memory

A flat memory of bytes, the effect of copying a byte string into it, and the C string
that is read back from a buffer.
-/

namespace Text

abbrev Memory : Type := Nat → UInt8

namespace Memory

/-- The memory after the bytes are copied to an address. -/
def write (memory : Memory) (address : Nat) (bytes : Bytes) : Memory := fun a =>
  if address ≤ a then bytes[a - address]?.getD (memory a) else memory a

/-- The bytes from an address on. -/
def bytesAt (memory : Memory) (address length : Nat) : Bytes :=
  (List.range length).map fun i => memory (address + i)

/-- The C string in a buffer: its bytes before the first NUL. -/
def cString (memory : Memory) (address size : Nat) : Bytes :=
  (memory.bytesAt address size).takeWhile fun byte => byte ≠ 0

variable {memory : Memory} {address : Nat} {bytes text : Bytes}

theorem write_inside {i : Nat} (inside : i < bytes.length) :
    memory.write address bytes (address + i) = bytes[i] := by
  simp [write, inside]

theorem write_beyond {a : Nat} (beyond : address + bytes.length ≤ a) :
    memory.write address bytes a = memory a := by
  have past : bytes[a - address]? = none := List.getElem?_eq_none (by omega)
  simp [write, past]

theorem write_before {a : Nat} (before : a < address) :
    memory.write address bytes a = memory a := by
  rw [write, if_neg (Nat.not_le_of_lt before)]

@[simp]
theorem write_single {byte : UInt8} : memory.write address [byte] address = byte := by
  simp [write]

@[simp]
theorem bytesAt_length (length : Nat) : (memory.bytesAt address length).length = length := by
  simp [bytesAt]

theorem bytesAt_add (first second : Nat) : memory.bytesAt address (first + second) =
    memory.bytesAt address first ++ memory.bytesAt (address + first) second := by
  simp [bytesAt, List.range_add, Function.comp_def, Nat.add_assoc]

theorem bytesAt_succ (length : Nat) : memory.bytesAt address (length + 1) =
    memory.bytesAt address length ++ [memory (address + length)] := by
  rw [bytesAt_add]
  rfl

/-- What is copied behind some bytes leaves them alone. -/
theorem bytesAt_write_behind (length : Nat) :
    (memory.write (address + length) bytes).bytesAt address length =
      memory.bytesAt address length :=
  List.map_congr_left fun _ member =>
    write_before (Nat.add_lt_add_left (List.mem_range.mp member) _)

/-- What is copied in front of some bytes leaves them alone. -/
theorem bytesAt_write_before {a : Nat} (behind : address + bytes.length ≤ a) (length : Nat) :
    (memory.write address bytes).bytesAt a length = memory.bytesAt a length :=
  List.map_congr_left fun _ _ => write_beyond (behind.trans (Nat.le_add_right _ _))

/-- What was copied is read back. -/
@[simp]
theorem bytesAt_write : (memory.write address bytes).bytesAt address bytes.length = bytes := by
  refine List.ext_getElem (by simp) fun i _ inside => ?_
  simp only [bytesAt, List.getElem_map, List.getElem_range]
  exact write_inside inside

/-- A terminated text without NUL is the C string of any buffer that it fits. -/
theorem cString_eq {size : Nat} (clean : 0 ∉ text) (fits : text.length < size)
    (holds : memory.bytesAt address (text.length + 1) = text ++ [0]) :
    memory.cString address size = text := by
  obtain ⟨rest, rfl⟩ := Nat.exists_eq_add_of_le (Nat.succ_le_of_lt fits)
  have nonzero : ∀ byte ∈ text, decide (byte ≠ 0) = true := by
    intro byte member
    exact decide_eq_true fun zero => clean (zero ▸ member)
  rw [cString, bytesAt_add, holds, List.append_assoc, List.takeWhile_append_of_pos nonzero,
    List.singleton_append, List.takeWhile_cons_of_neg (by simp), List.append_nil]

end Memory

end Text
