import Mathlib

/-!
# Byte strings and the printf family

A format string is parsed into literal bytes and conversions, and rendered against
a list of arguments.  The conversions are `%s`, `%d`, `%u`, `%x` and `%o` with an
optional zero flag, width and `ll` length.  Line framing is the last part: which
renderings contain a newline, and why a sequence of lines can be read back.
-/

namespace Text

abbrev Bytes : Type := List UInt8

def byteOf (c : Char) : UInt8 := UInt8.ofNat c.toNat

/-- The bytes of an ASCII literal. -/
def ascii (text : String) : Bytes := text.toList.map byteOf

def newline : UInt8 := 10

/-! ## Numerals -/

def numeral (base n : Nat) : Bytes := (Nat.toDigits base n).map byteOf

def signedNumeral (z : Int) : Bytes :=
  if z < 0 then byteOf '-' :: numeral 10 z.natAbs else numeral 10 z.natAbs

def padLeft (fill : UInt8) (width : Nat) (text : Bytes) : Bytes :=
  List.replicate (width - text.length) fill ++ text

theorem mem_toDigits {base n : Nat} (hbase : 1 < base) {c : Char}
    (member : c ∈ Nat.toDigits base n) : ∃ digit < base, c = Nat.digitChar digit := by
  induction n using Nat.strongRecOn with
  | ind n ih =>
      rw [Nat.toDigits_eq_if hbase] at member
      split at member
      · next small => exact ⟨n, small, List.mem_singleton.mp member⟩
      · next large =>
          obtain inside | here := List.mem_append.mp member
          · exact ih _ (Nat.div_lt_self (by omega) hbase) inside
          · exact ⟨_, Nat.mod_lt _ (by omega), List.mem_singleton.mp here⟩

theorem notMem_numeral {base : Nat} (hbase : 1 < base) {byte : UInt8}
    (noDigit : ∀ digit < base, byteOf (Nat.digitChar digit) ≠ byte) (n : Nat) :
    byte ∉ numeral base n := by
  intro member
  obtain ⟨c, inside, heq⟩ := List.mem_map.mp member
  obtain ⟨digit, bound, rfl⟩ := mem_toDigits hbase inside
  exact noDigit digit bound heq

theorem digitChar_ne_newline : ∀ digit < 16, byteOf (Nat.digitChar digit) ≠ newline := by
  decide

theorem newline_notMem_numeral {base : Nat} (hbase : 1 < base) (small : base ≤ 16) (n : Nat) :
    newline ∉ numeral base n :=
  notMem_numeral hbase (fun digit bound =>
    digitChar_ne_newline digit (Nat.lt_of_lt_of_le bound small)) n

theorem numeral_length_le_iff {base n digits : Nat} (hbase : 1 < base) (positive : 0 < digits) :
    (numeral base n).length ≤ digits ↔ n < base ^ digits := by
  rw [numeral, List.length_map, Nat.length_toDigits_le_iff hbase positive]

/-- The value of a decimal numeral. -/
def valueOf (text : Bytes) : Nat := Nat.ofDigitChars 10 (text.map fun b => Char.ofNat b.toNat) 0

theorem charOf_digit : ∀ digit < 10,
    Char.ofNat (byteOf (Nat.digitChar digit)).toNat = Nat.digitChar digit := by
  decide

@[simp]
theorem valueOf_numeral (n : Nat) : valueOf (numeral 10 n) = n := by
  have chars : (numeral 10 n).map (fun b => Char.ofNat b.toNat) = Nat.toDigits 10 n := by
    rw [numeral, List.map_map]
    refine (List.map_congr_left fun c member => ?_).trans (List.map_id _)
    obtain ⟨digit, bound, rfl⟩ := mem_toDigits (by decide) member
    exact charOf_digit digit bound
  rw [valueOf, chars, Nat.ofDigitChars_ten_toDigits]

theorem numeral_injective : Function.Injective (numeral 10) :=
  Function.LeftInverse.injective valueOf_numeral

theorem newline_notMem_signedNumeral (z : Int) : newline ∉ signedNumeral z := by
  have digits := newline_notMem_numeral (by decide : 1 < 10) (by decide) z.natAbs
  unfold signedNumeral
  split
  · exact List.not_mem_cons_of_ne_of_not_mem (by decide) digits
  · exact digits

theorem mem_padLeft {byte fill : UInt8} {width : Nat} {text : Bytes}
    (member : byte ∈ padLeft fill width text) : byte = fill ∨ byte ∈ text := by
  obtain padding | inside := List.mem_append.mp member
  · exact .inl (List.eq_of_mem_replicate padding)
  · exact .inr inside

theorem mem_padLeft_of_mem {byte : UInt8} (fill : UInt8) (width : Nat) {text : Bytes}
    (member : byte ∈ text) : byte ∈ padLeft fill width text :=
  List.mem_append_right _ member

/-! ## Formats -/

inductive Conversion where
  | string
  | signed
  | unsigned
  | hex
  | octal
  deriving DecidableEq, Repr

/-- A conversion specification: zero flag, minimal width, `ll` length. -/
structure Spec where
  zero : Bool
  width : Nat
  long : Bool
  deriving DecidableEq, Repr

inductive Piece where
  | literal (byte : UInt8)
  | convert (spec : Spec) (conversion : Conversion)
  deriving DecidableEq, Repr

/-- An argument as it is passed through `...`: a C string or an integer register. -/
inductive Arg where
  | str (text : Bytes)
  | int (value : Int)
  deriving DecidableEq, Repr

def conversionOf : Char → Option Conversion
  | 's' => some .string
  | 'd' => some .signed
  | 'u' => some .unsigned
  | 'x' => some .hex
  | 'o' => some .octal
  | _ => none

/-- Parse a format; the state is the specification read so far after a `%`. -/
def parseFrom : Option Spec → List Char → List Piece
  | _, [] => []
  | none, c :: rest =>
      if c = '%' then parseFrom (some ⟨false, 0, false⟩) rest
      else .literal (byteOf c) :: parseFrom none rest
  | some spec, c :: rest =>
      match conversionOf c with
      | some conversion => .convert spec conversion :: parseFrom none rest
      | none =>
          if c = 'l' then parseFrom (some { spec with long := true }) rest
          else if c = '0' ∧ spec.width = 0 then parseFrom (some { spec with zero := true }) rest
          else if c.isDigit then
            parseFrom (some { spec with width := 10 * spec.width + (c.toNat - '0'.toNat) }) rest
          else .literal (byteOf c) :: parseFrom none rest

def parse (format : String) : List Piece := parseFrom none format.toList

/-- The bits an integer conversion reads: an `int`, or 64 bits after `ll`. -/
def Spec.bits (spec : Spec) : Nat := if spec.long then 64 else 32

def Spec.unsignedOf (spec : Spec) (value : Int) : Nat := (value % 2 ^ spec.bits).toNat

def Spec.fill (spec : Spec) : UInt8 := if spec.zero then byteOf '0' else byteOf ' '

/-- One conversion.  A conversion whose argument is of the other kind prints nothing. -/
def convert (spec : Spec) : Conversion → Arg → Bytes
  | .string, .str text => padLeft spec.fill spec.width text
  | .signed, .int value =>
      padLeft spec.fill spec.width (signedNumeral (Int.bmod value (2 ^ spec.bits)))
  | .unsigned, .int value => padLeft spec.fill spec.width (numeral 10 (spec.unsignedOf value))
  | .hex, .int value => padLeft spec.fill spec.width (numeral 16 (spec.unsignedOf value))
  | .octal, .int value => padLeft spec.fill spec.width (numeral 8 (spec.unsignedOf value))
  | _, _ => []

/-- The bytes printed for parsed pieces; arguments are consumed from the left. -/
def renderPieces : List Piece → List Arg → Bytes
  | [], _ => []
  | .literal byte :: pieces, args => byte :: renderPieces pieces args
  | .convert spec conversion :: pieces, arg :: args =>
      convert spec conversion arg ++ renderPieces pieces args
  | .convert _ _ :: pieces, [] => renderPieces pieces []

/-- The output of `vfprintf` or `sprintf` for a format and its arguments. -/
def render (format : String) (args : List Arg) : Bytes := renderPieces (parse format) args

/-- The strings that `%s` conversions splice into the output. -/
def spliced : List Piece → List Arg → List Bytes
  | [], _ => []
  | .literal _ :: pieces, args => spliced pieces args
  | .convert _ .string :: pieces, .str text :: args => text :: spliced pieces args
  | .convert _ _ :: pieces, args => spliced pieces args.tail

example : render "0%3o %08x %d|%s|" [.int 8, .int 48879, .int (-1), .str (ascii "a")] =
    ascii "0 10 0000beef -1|a|" := by decide

theorem renderPieces_literals (bytes : Bytes) (pieces : List Piece) (args : List Arg) :
    renderPieces (bytes.map .literal ++ pieces) args = bytes ++ renderPieces pieces args := by
  induction bytes with
  | nil => rfl
  | cons byte bytes ih => exact congrArg (List.cons byte) ih

/-- A plain `%d` prints a natural number that an `int` holds as its decimals. -/
theorem convert_natural {value : Nat} (small : value < 2 ^ 31) :
    convert ⟨false, 0, false⟩ .signed (.int value) = numeral 10 value := by
  have held : Int.bmod value (2 ^ 32) = value := Int.bmod_eq_of_le (by omega) (by omega)
  have natural : ¬ (value : Int) < 0 := by omega
  have width : Spec.bits ⟨false, 0, false⟩ = 32 := rfl
  rw [convert, width, held, signedNumeral, if_neg natural, Int.natAbs_natCast, padLeft,
    Nat.zero_sub, List.replicate_zero, List.nil_append]

theorem renderPieces_snoc_literal (pieces : List Piece) (byte : UInt8) (args : List Arg) :
    renderPieces (pieces ++ [.literal byte]) args = renderPieces pieces args ++ [byte] := by
  induction pieces generalizing args with
  | nil => rfl
  | cons piece pieces ih =>
      cases piece with
      | literal other => exact congrArg (List.cons other) (ih args)
      | convert spec conversion =>
          cases args with
          | nil => exact ih []
          | cons arg args =>
              simp only [List.cons_append, renderPieces, ih, List.append_assoc]

/-- A conversion prints a newline only by splicing a string that has one. -/
theorem newline_mem_convert_iff {spec : Spec} {conversion : Conversion} {arg : Arg} :
    newline ∈ convert spec conversion arg ↔
      ∃ text, conversion = .string ∧ arg = .str text ∧ newline ∈ text := by
  have fill : newline ≠ spec.fill := by
    unfold Spec.fill
    split <;> decide
  constructor
  · intro member
    cases conversion <;> cases arg <;> simp only [convert, List.not_mem_nil] at member
    case string.str text =>
        exact ⟨text, rfl, rfl, (mem_padLeft member).resolve_left fill⟩
    case signed.int value =>
        exact absurd ((mem_padLeft member).resolve_left fill) (newline_notMem_signedNumeral _)
    all_goals
      exact absurd ((mem_padLeft member).resolve_left fill)
        (newline_notMem_numeral (by decide) (by decide) _)
  · rintro ⟨text, rfl, rfl, member⟩
    exact mem_padLeft_of_mem _ _ member

/-- Where the newlines of a rendering come from. -/
theorem newline_mem_renderPieces_iff {pieces : List Piece} {args : List Arg} :
    newline ∈ renderPieces pieces args ↔
      .literal newline ∈ pieces ∨ ∃ text ∈ spliced pieces args, newline ∈ text := by
  induction pieces generalizing args with
  | nil => simp [renderPieces, spliced]
  | cons piece pieces ih =>
      cases piece with
      | literal byte => simp [renderPieces, spliced, ih, or_assoc]
      | convert spec conversion =>
          cases args with
          | nil => cases conversion <;> simp [renderPieces, spliced, ih]
          | cons arg args =>
              cases conversion <;> cases arg <;>
                simp [renderPieces, spliced, ih, newline_mem_convert_iff, or_left_comm]

/-! ## Separators -/

/-- What stands before the first separator of a text is determined by the text. -/
theorem append_separator_inj {separator : UInt8} {first second rest more : Bytes}
    (hfirst : separator ∉ first) (hsecond : separator ∉ second)
    (heq : first ++ separator :: rest = second ++ separator :: more) :
    first = second ∧ rest = more := by
  induction first generalizing second with
  | nil =>
      cases second with
      | nil => exact ⟨rfl, (List.cons.inj heq).2⟩
      | cons byte second =>
          have here : separator = byte := (List.cons.inj heq).1
          exact absurd (here ▸ List.mem_cons_self) hsecond
  | cons byte first ih =>
      cases second with
      | nil =>
          have here : byte = separator := (List.cons.inj heq).1
          exact absurd (here ▸ List.mem_cons_self) hfirst
      | cons other second =>
          obtain ⟨same, tails⟩ := List.cons.inj heq
          obtain ⟨bodies, rests⟩ := ih (fun inside => hfirst (List.mem_cons_of_mem _ inside))
            (fun inside => hsecond (List.mem_cons_of_mem _ inside)) tails
          exact ⟨by rw [same, bodies], rests⟩

/-! ## Lines -/

/-- Exactly one newline, at the end. -/
def IsLine (text : Bytes) : Prop := ∃ body, text = body ++ [newline] ∧ newline ∉ body

theorem isLine_snoc_iff {body : Bytes} : IsLine (body ++ [newline]) ↔ newline ∉ body := by
  constructor
  · rintro ⟨other, heq, clean⟩
    rwa [(List.append_inj_left' heq rfl)]
  · exact fun clean => ⟨body, rfl, clean⟩

theorem IsLine.count {text : Bytes} (line : IsLine text) : text.count newline = 1 := by
  obtain ⟨body, rfl, clean⟩ := line
  rw [List.count_append, List.count_eq_zero_of_not_mem clean]
  rfl

/-- The format ends in its only newline. -/
def EndsLine (format : String) : Prop :=
  (parse format).getLast? = some (.literal newline) ∧ .literal newline ∉ (parse format).dropLast

instance (format : String) : Decidable (EndsLine format) :=
  inferInstanceAs (Decidable (_ ∧ _))

/-- A format given by its characters. -/
theorem endsLine_ofList {characters : List Char}
    (ends : (parseFrom none characters).getLast? = some (.literal newline) ∧
      .literal newline ∉ (parseFrom none characters).dropLast) :
    EndsLine (String.ofList characters) := by
  unfold EndsLine parse
  rwa [String.toList_ofList]

theorem spliced_snoc_literal (pieces : List Piece) (byte : UInt8) (args : List Arg) :
    spliced (pieces ++ [.literal byte]) args = spliced pieces args := by
  induction pieces generalizing args with
  | nil => rfl
  | cons piece pieces ih =>
      cases piece with
      | literal other => exact ih args
      | convert spec conversion =>
          cases args with
          | nil => cases conversion <;> exact ih []
          | cons arg args =>
              cases conversion <;> cases arg <;> first
                | exact ih args
                | exact congrArg (List.cons _) (ih args)

/-- What such a format prints after a text without newline is a line, unless a string
with a newline is spliced in. -/
theorem EndsLine.isLine_iff {format : String} (ends : EndsLine format) {before : Bytes}
    (clean : newline ∉ before) {args : List Arg} :
    IsLine (before ++ render format args) ↔
      ∀ text ∈ spliced (parse format) args, newline ∉ text := by
  obtain ⟨last, only⟩ := ends
  have split := List.dropLast_append_getLast? _ last
  rw [render, ← split, renderPieces_snoc_literal, ← List.append_assoc, isLine_snoc_iff,
    spliced_snoc_literal, List.mem_append, newline_mem_renderPieces_iff]
  simp [clean, only]

/-- The first line of a text is determined by the text. -/
theorem IsLine.append_inj {first second rest more : Bytes} (hfirst : IsLine first)
    (hsecond : IsLine second) (heq : first ++ rest = second ++ more) :
    first = second ∧ rest = more := by
  obtain ⟨left, rfl, hleft⟩ := hfirst
  obtain ⟨right, rfl, hright⟩ := hsecond
  simp only [List.append_assoc, List.singleton_append] at heq
  obtain ⟨bodies, rests⟩ := append_separator_inj hleft hright heq
  exact ⟨by rw [bodies], rests⟩

/-- A text made of lines has as many newlines as lines. -/
theorem count_newline_flatten {lines : List Bytes} (framed : ∀ line ∈ lines, IsLine line) :
    lines.flatten.count newline = lines.length := by
  induction lines with
  | nil => rfl
  | cons line lines ih =>
      rw [List.flatten_cons, List.count_append, (framed line List.mem_cons_self).count,
        ih fun other member => framed other (List.mem_cons_of_mem _ member), List.length_cons,
        Nat.add_comm]

/-- A text made of lines determines the lines. -/
theorem flatten_lines_injective {lines more : List Bytes}
    (framed : ∀ line ∈ lines, IsLine line) (framedMore : ∀ line ∈ more, IsLine line)
    (heq : lines.flatten = more.flatten) : lines = more := by
  induction lines generalizing more with
  | nil =>
      have counted := count_newline_flatten framedMore
      rw [← heq] at counted
      exact (List.length_eq_zero_iff.mp counted.symm).symm
  | cons line lines ih =>
      cases more with
      | nil =>
          have counted := count_newline_flatten framed
          rw [heq] at counted
          cases counted
      | cons other more =>
          obtain ⟨first, rest⟩ := (framed line List.mem_cons_self).append_inj
            (framedMore other List.mem_cons_self) heq
          rw [first, ih (fun l member => framed l (List.mem_cons_of_mem _ member))
            (fun l member => framedMore l (List.mem_cons_of_mem _ member)) rest]

end Text
