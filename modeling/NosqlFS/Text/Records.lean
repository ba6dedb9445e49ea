import NosqlFS.Text.Memory

/-!
# Records in byte strings

Numbers as words of a fixed width with the least significant byte first, and records that
follow each other without a gap.
-/

namespace Text

/-! ## Words -/

/-- The lowest bytes of a number. -/
def littleEndian : Nat → Nat → Bytes
  | 0, _ => []
  | width + 1, n => UInt8.ofNat n :: littleEndian width (n / 256)

def fromLittleEndian (bytes : Bytes) : Nat := Nat.ofDigits 256 (bytes.map UInt8.toNat)

@[simp]
theorem littleEndian_length (width n : Nat) : (littleEndian width n).length = width := by
  induction width generalizing n with
  | zero => rfl
  | succ width ih => rw [littleEndian, List.length_cons, ih]

theorem fromLittleEndian_littleEndian (width n : Nat) :
    fromLittleEndian (littleEndian width n) = n % 256 ^ width := by
  induction width generalizing n with
  | zero => rw [pow_zero, Nat.mod_one]; rfl
  | succ width ih =>
      have later : Nat.ofDigits 256 ((littleEndian width (n / 256)).map UInt8.toNat) =
          n / 256 % 256 ^ width := ih _
      rw [littleEndian, fromLittleEndian, List.map_cons, Nat.ofDigits_cons, later, pow_succ',
        Nat.mod_mul, UInt8.toNat_ofNat']

/-- Take some bytes off the front. -/
def readBytes (count : Nat) (bytes : Bytes) : Option (Bytes × Bytes) :=
  if bytes.length < count then none else some (bytes.take count, bytes.drop count)

theorem readBytes_append (taken rest : Bytes) :
    readBytes taken.length (taken ++ rest) = some (taken, rest) := by
  rw [readBytes, if_neg (by rw [List.length_append]; omega), List.take_left, List.drop_left]

theorem readBytes_length {count : Nat} {bytes taken rest : Bytes}
    (reads : readBytes count bytes = some (taken, rest)) : rest.length + count = bytes.length := by
  unfold readBytes at reads
  split at reads
  · cases reads
  · cases reads
    rw [List.length_drop]
    omega

/-- Words of given widths and values, one after the other. -/
def writeWords (words : List (Nat × Nat)) : Bytes :=
  words.flatMap fun word => littleEndian word.1 word.2

def readWords : List Nat → Bytes → Option (List Nat × Bytes)
  | [], bytes => some ([], bytes)
  | width :: widths, bytes => do
      let (word, behind) ← readBytes width bytes
      let (values, rest) ← readWords widths behind
      return (fromLittleEndian word :: values, rest)

/-- The words that were written are read back, as far as they fit into their widths. -/
theorem readWords_writeWords (words : List (Nat × Nat)) (rest : Bytes) :
    readWords (words.map Prod.fst) (writeWords words ++ rest) =
      some (words.map fun word => word.2 % 256 ^ word.1, rest) := by
  induction words with
  | nil => rfl
  | cons word words ih =>
      have first : readBytes word.1 (littleEndian word.1 word.2 ++ (writeWords words ++ rest)) =
          some (littleEndian word.1 word.2, writeWords words ++ rest) := by
        conv => lhs; arg 1; rw [← littleEndian_length word.1 word.2]
        exact readBytes_append _ _
      have split : writeWords (word :: words) ++ rest =
          littleEndian word.1 word.2 ++ (writeWords words ++ rest) := by
        rw [writeWords, List.flatMap_cons, List.append_assoc]
        rfl
      rw [List.map_cons, split, readWords, first]
      simp only [Option.bind_eq_bind, Option.bind_some, ih, List.map_cons,
        fromLittleEndian_littleEndian]
      rfl

theorem readWords_length_le {widths values : List Nat} {bytes rest : Bytes}
    (reads : readWords widths bytes = some (values, rest)) : rest.length ≤ bytes.length := by
  induction widths generalizing values bytes with
  | nil =>
      cases reads
      exact Nat.le_refl _
  | cons width widths ih =>
      simp only [readWords, Option.bind_eq_bind, Option.bind_eq_some_iff] at reads
      obtain ⟨⟨word, behind⟩, first, ⟨later, tail⟩, others, same⟩ := reads
      cases same
      have shorter : behind.length + width = bytes.length := readBytes_length first
      have shortest : tail.length ≤ behind.length := ih others
      change tail.length ≤ bytes.length
      omega

theorem readWords_length_lt {width : Nat} {widths values : List Nat} {bytes rest : Bytes}
    (wide : 0 < width) (reads : readWords (width :: widths) bytes = some (values, rest)) :
    rest.length < bytes.length := by
  simp only [readWords, Option.bind_eq_bind, Option.bind_eq_some_iff] at reads
  obtain ⟨⟨word, behind⟩, first, ⟨later, tail⟩, others, same⟩ := reads
  cases same
  have shorter : behind.length + width = bytes.length := readBytes_length first
  have shortest : tail.length ≤ behind.length := readWords_length_le others
  change tail.length < bytes.length
  omega

/-! ## Records -/

/-- How records are read off the front of some bytes. -/
structure Reader (Record : Type) where
  read : Bytes → Option (Record × Bytes)
  shortens : ∀ {bytes record rest}, read bytes = some (record, rest) → rest.length < bytes.length

namespace Reader

variable {Record : Type} (reader : Reader Record)

def readWithin : Nat → Bytes → Option (List Record)
  | _, [] => some []
  | 0, _ :: _ => none
  | steps + 1, byte :: bytes => do
      let (record, rest) ← reader.read (byte :: bytes)
      let records ← readWithin steps rest
      return record :: records

/-- All records; the last one ends with the bytes. -/
def readAll (bytes : Bytes) : Option (List Record) := reader.readWithin bytes.length bytes

variable {reader} {write : Record → Bytes} {records : List Record}

/-- Records that are read off wherever they stand are read off a sequence of them. -/
theorem readAll_flatMap (reads : ∀ record ∈ records, ∀ rest,
    reader.read (write record ++ rest) = some (record, rest)) :
    reader.readAll (records.flatMap write) = some records := by
  have within : ∀ steps, (records.flatMap write).length ≤ steps →
      reader.readWithin steps (records.flatMap write) = some records := by
    induction records with
    | nil => intro steps _; cases steps <;> rfl
    | cons record records ih =>
        intro steps enough
        have here := reads record List.mem_cons_self (records.flatMap write)
        have shorter := reader.shortens here
        rw [List.flatMap_cons] at enough ⊢
        cases steps with
        | zero => omega
        | succ steps =>
            cases bytes : write record ++ records.flatMap write with
            | nil => rw [bytes] at shorter; exact absurd shorter (Nat.not_lt_zero _)
            | cons byte behind =>
                have later := ih (fun other member =>
                  reads other (List.mem_cons_of_mem _ member)) steps (by omega)
                rw [bytes] at here
                simp only [readWithin, here, Option.bind_eq_bind, Option.bind_some, later]
                rfl
  exact within _ (Nat.le_refl _)

end Reader

end Text
