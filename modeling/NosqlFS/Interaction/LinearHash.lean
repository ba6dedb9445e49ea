import Mathlib.Algebra.BigOperators.Group.Finset.Basic
import Mathlib.Algebra.Order.BigOperators.Group.Finset
import Mathlib.Data.Multiset.Basic
import Mathlib.Data.Finset.Basic
import Mathlib.Tactic.Abel
import Mathlib.Tactic.Ring

/-!
# Linear hashing

A table of buckets that grows and shrinks by one bucket at a time.  The buckets below
`split` have been divided in two; the size doubles when all of them are, and halves when
none is.  Whatever has been divided or joined, an element lies in the bucket of its hash.
-/

namespace LinearHash

structure Table (ε : Type) where
  array : Nat → List ε
  use : Nat
  size : Nat
  split : Nat

namespace Table

variable {ε : Type}

/-- The bucket of a hash. -/
def slot (t : Table ε) (hash : Nat) : Nat :=
  if t.split ≤ hash % t.size % (t.size / 2) then hash % t.size % (t.size / 2)
  else hash % t.size

/-- The first element of the bucket that answers a question. -/
def find (t : Table ε) (hash : Nat) (asked : ε → Bool) : Option ε :=
  (t.array (t.slot hash)).find? asked

/-- Put an element at the head of a bucket. -/
def push (array : Nat → List ε) (i : Nat) (e : ε) : Nat → List ε :=
  Function.update array i (e :: array i)

/-- Twice as many buckets; the upper half is empty. -/
def resize (t : Table ε) (granted : Bool) : Table ε :=
  if granted then
    { t with
      array := fun i => if t.size ≤ i ∧ i < t.size * 2 then [] else t.array i
      size := t.size * 2
      split := 0 }
  else t

/-- What changes its bucket goes to the head of the new one; the rest stays in order. -/
def divide (bucketOf : ε → Nat) (i : Nat) (array : Nat → List ε) : Nat → List ε :=
  ((array i).filter fun e => bucketOf e ≠ i).foldl (fun moved e => push moved (bucketOf e) e)
    (Function.update array i ((array i).filter fun e => bucketOf e = i))

/-- One more bucket counts as divided. -/
def further (t : Table ε) : Table ε := { t with split := t.split + 1 }

/-- Divide the next bucket. -/
def divideNext (hashOf : ε → Nat) (t : Table ε) : Table ε :=
  { t.further with array := divide (fun e => t.further.slot (hashOf e)) t.split t.array }

def rehash (hashOf : ε → Nat) (granted : Bool) (t : Table ε) : Table ε :=
  if t.split = t.size / 2 then t
  else if t.split + 1 = t.size / 2 then (t.divideNext hashOf).resize granted
  else t.divideNext hashOf

/-- Put an element into its bucket. -/
def put (hashOf : ε → Nat) (t : Table ε) (e : ε) : Table ε :=
  { t with array := push t.array (t.slot (hashOf e)) e, use := t.use + 1 }

def insert (hashOf : ε → Nat) (granted : Bool) (t : Table ε) (e : ε) : Table ε :=
  if t.size / 2 ≤ t.use + 1 then (t.put hashOf e).rehash hashOf granted else t.put hashOf e

/-- Half as many buckets, all of them divided. -/
def reduce (least : Nat) (t : Table ε) : Table ε :=
  if t.size / 2 < least then t
  else { t with size := t.size / 2, split := t.size / 2 / 2 }

/-- Append the upper of two buckets to the lower. -/
def joinLast (t : Table ε) : Table ε :=
  { t with
    split := t.split - 1
    array := Function.update
      (Function.update t.array (t.split - 1)
        (t.array (t.split - 1) ++ t.array (t.split - 1 + t.size / 2)))
      (t.split - 1 + t.size / 2) [] }

/-- Join buckets until one of them brings an element, or for so many times. -/
def join : Nat → Table ε → Table ε
  | 0, t => t
  | times + 1, t =>
      if t.split = 0 then t
      else if t.array (t.split - 1 + t.size / 2) = [] then join times { t with split := t.split - 1 }
      else t.joinLast

def remerge (least : Nat) (t : Table ε) : Table ε :=
  join 8 (if t.split = 0 then t.reduce least else t)

/-- Take an element out of its bucket, if it is there. -/
def take [DecidableEq ε] (hashOf : ε → Nat) (t : Table ε) (e : ε) : Option (Table ε) :=
  if e ∈ t.array (t.slot (hashOf e)) then
    some { t with
      array := Function.update t.array (t.slot (hashOf e))
        ((t.array (t.slot (hashOf e))).erase e) }
  else none

/-- Count an element that was taken. -/
def settle (least : Nat) (t : Table ε) : Table ε :=
  if t.use - 1 < t.size / 4 then ({ t with use := t.use - 1 } : Table ε).remerge least
  else { t with use := t.use - 1 }

/-- A table of as many buckets as it may have least. -/
def empty (least : Nat) : Table ε := ⟨fun _ => [], 0, least, 0⟩

/-! ## Buckets of a hash -/

section Slots

variable {t : Table ε} {half hash : Nat}

/-- A hash is in the bucket of its remainder, or above it by half the size once that
bucket has been divided. -/
theorem slot_eq (even : t.size = 2 * half) : t.slot hash =
    if t.split ≤ hash % half then hash % half else hash % half + half * (hash / half % 2) := by
  have halved : t.size / 2 = half := by omega
  have whole : hash % t.size = hash % half + half * (hash / half % 2) := by
    rw [even, Nat.mul_comm, Nat.mod_mul]
  have remainder : hash % t.size % half = hash % half := by
    rw [even, Nat.mul_comm, Nat.mod_mul_right_mod]
  rw [slot, halved, remainder, whole]

theorem slot_cases (even : t.size = 2 * half) :
    t.split ≤ hash % half ∧ t.slot hash = hash % half ∨
    hash % half < t.split ∧ hash / half % 2 = 0 ∧ t.slot hash = hash % half ∨
    hash % half < t.split ∧ hash / half % 2 = 1 ∧ t.slot hash = hash % half + half := by
  rw [slot_eq even]
  by_cases low : t.split ≤ hash % half
  · exact .inl ⟨low, if_pos low⟩
  · rw [if_neg low]
    rcases Nat.mod_two_eq_zero_or_one (hash / half) with digit | digit <;> rw [digit] <;> omega

theorem slot_lt (even : t.size = 2 * half) (positive : 0 < half) : t.slot hash < t.size := by
  have bound := Nat.mod_lt hash positive
  rcases @slot_cases _ t half hash even with ⟨_, at_⟩ | ⟨_, _, at_⟩ | ⟨_, _, at_⟩ <;> omega

/-- Dividing a bucket moves no hash of another bucket. -/
theorem slot_further (even : t.size = 2 * half) (further : Table ε) (size : further.size = t.size)
    (split : further.split = t.split + 1) (apart : t.slot hash ≠ t.split) :
    further.slot hash = t.slot hash := by
  rcases @slot_cases _ t half hash even with ⟨_, at_⟩ | ⟨_, _, at_⟩ | ⟨_, _, at_⟩ <;>
    rcases @slot_cases _ further half hash (size.trans even) with
      ⟨_, to_⟩ | ⟨_, _, to_⟩ | ⟨_, _, to_⟩ <;> omega

/-- The hashes of the bucket below which another one is joined. -/
theorem slot_joined (even : t.size = 2 * half) (bounded : t.split ≤ half) (joined : Table ε)
    (size : joined.size = t.size) (split : t.split = joined.split + 1) : joined.slot hash =
      if t.slot hash = joined.split + half then joined.split else t.slot hash := by
  have below : 0 < half := by omega
  have bound := Nat.mod_lt hash below
  rcases @slot_cases _ t half hash even with ⟨_, at_⟩ | ⟨_, _, at_⟩ | ⟨_, _, at_⟩ <;>
    rcases @slot_cases _ joined half hash (size.trans even) with
      ⟨_, to_⟩ | ⟨_, _, to_⟩ | ⟨_, _, to_⟩ <;> split <;> omega

/-- When every bucket has been divided the size may double. -/
theorem slot_doubled (even : t.size = 2 * half) (complete : t.split = half) (doubled : Table ε)
    (size : doubled.size = 2 * t.size) (split : doubled.split = 0) (positive : 0 < half) :
    doubled.slot hash = t.slot hash := by
  have bound := Nat.mod_lt hash positive
  rw [slot_eq size, split, if_pos (Nat.zero_le _), slot_eq even, if_neg (by omega), even,
    Nat.mul_comm, Nat.mod_mul]

/-- When no bucket has been divided the size may be halved. -/
theorem slot_halved (even : t.size = 2 * half) (whole : t.split = 0) (halved : Table ε) {quarter : Nat}
    (size : halved.size = half) (quartered : half = 2 * quarter) (split : halved.split = quarter)
    (positive : 0 < quarter) : halved.slot hash = t.slot hash := by
  have bound := Nat.mod_lt hash positive
  rw [slot_eq (size.trans quartered), split, if_neg (by omega), slot_eq even, whole,
    if_pos (Nat.zero_le _), quartered, Nat.mul_comm 2, Nat.mod_mul]

end Slots

/-! ## Contents -/

/-- All elements, in no order. -/
def content (t : Table ε) : Multiset ε :=
  ∑ i ∈ Finset.range t.size, (t.array i : Multiset ε)

theorem mem_content {t : Table ε} {e : ε} :
    e ∈ t.content ↔ ∃ i, i < t.size ∧ e ∈ t.array i := by
  simp [content, Multiset.mem_sum]

/-- Replacing a bucket exchanges its elements. -/
theorem sum_update (array : Nat → List ε) {size i : Nat} (inside : i < size) (bucket : List ε) :
    ∑ j ∈ Finset.range size, (Function.update array i bucket j : Multiset ε) + array i =
      ∑ j ∈ Finset.range size, (array j : Multiset ε) + bucket := by
  have among : i ∈ Finset.range size := Finset.mem_range.mpr inside
  rw [← Finset.add_sum_erase _ _ among, ← Finset.add_sum_erase (Finset.range size) _ among,
    Function.update_self]
  have others : ∑ j ∈ (Finset.range size).erase i,
      (Function.update array i bucket j : Multiset ε) =
        ∑ j ∈ (Finset.range size).erase i, (array j : Multiset ε) :=
    Finset.sum_congr rfl fun j member => by
      rw [Function.update_of_ne (Finset.ne_of_mem_erase member)]
  rw [others]
  abel

theorem sum_push {array : Nat → List ε} {size i : Nat} (inside : i < size) (e : ε) :
    ∑ j ∈ Finset.range size, (push array i e j : Multiset ε) =
      e ::ₘ ∑ j ∈ Finset.range size, (array j : Multiset ε) := by
  have exchanged := sum_update array inside (e :: array i)
  rw [← Multiset.cons_coe, Multiset.add_cons, ← Multiset.cons_add] at exchanged
  exact add_right_cancel exchanged

/-- The table keeps every element in the bucket of its hash. -/
structure Wf (least : Nat) (hashOf : ε → Nat) (t : Table ε) : Prop where
  positive : 0 < least
  even : 2 ∣ least
  shape : ∃ k, t.size = least * 2 ^ k
  bounded : t.split ≤ t.size / 2
  placed : ∀ i e, i < t.size → e ∈ t.array i → t.slot (hashOf e) = i

namespace Wf

variable {least : Nat} {hashOf : ε → Nat} {t : Table ε} {e : ε}

theorem halves (wf : t.Wf least hashOf) : t.size = 2 * (t.size / 2) ∧ 0 < t.size / 2 := by
  obtain ⟨k, sized⟩ := wf.shape
  obtain ⟨half, rfl⟩ := wf.even
  have power : 0 < 2 ^ k := Nat.two_pow_pos k
  have large : 0 < half * 2 ^ k := Nat.mul_pos (Nat.pos_of_mul_pos_left wf.positive) power
  rw [Nat.mul_assoc] at sized
  omega

theorem slot_lt (wf : t.Wf least hashOf) (hash : Nat) : t.slot hash < t.size :=
  Table.slot_lt wf.halves.1 wf.halves.2

/-- An element is looked for in one bucket. -/
theorem mem_content_iff (wf : t.Wf least hashOf) :
    e ∈ t.content ↔ e ∈ t.array (t.slot (hashOf e)) := by
  rw [mem_content]
  constructor
  · rintro ⟨i, inside, member⟩
    rwa [wf.placed i e inside member]
  · exact fun member => ⟨_, wf.slot_lt _, member⟩

/-- What is asked of one hash is found exactly if some element answers. -/
theorem find_eq_some_iff (wf : t.Wf least hashOf) {hash : Nat} {asked : ε → Bool}
    (hashed : ∀ e ∈ t.content, asked e = true → hashOf e = hash)
    (single : ∀ e ∈ t.content, ∀ other ∈ t.content, asked e = true → asked other = true →
      e = other) :
    t.find hash asked = some e ↔ e ∈ t.content ∧ asked e = true := by
  have inside : ∀ e ∈ t.array (t.slot hash), e ∈ t.content := fun e member =>
    mem_content.mpr ⟨_, wf.slot_lt hash, member⟩
  constructor
  · intro found
    exact ⟨inside e (List.mem_of_find?_eq_some found), List.find?_some found⟩
  · rintro ⟨member, answers⟩
    have here : e ∈ t.array (t.slot hash) := by
      rw [← hashed e member answers]
      exact wf.mem_content_iff.mp member
    cases found : t.find hash asked with
    | none => exact absurd answers (List.find?_eq_none.mp found e here)
    | some other =>
        have among := inside other (List.mem_of_find?_eq_some found)
        rw [single other among e member (List.find?_some found) answers]

/-- Only the hashes of the elements matter. -/
theorem congr (wf : t.Wf least hashOf) {other : ε → Nat}
    (same : ∀ e ∈ t.content, other e = hashOf e) : t.Wf least other :=
  { wf with
    placed := fun i e inside member => by
      rw [same e (mem_content.mpr ⟨i, inside, member⟩), wf.placed i e inside member] }

end Wf

/-! ## Dividing a bucket -/

section Divide

variable {bucketOf : ε → Nat} {array : Nat → List ε}

theorem sum_pushes {size : Nat} {moved : List ε} (inside : ∀ e ∈ moved, bucketOf e < size) :
    ∑ j ∈ Finset.range size,
        ((moved.foldl (fun array e => push array (bucketOf e) e) array) j : Multiset ε) =
      moved + ∑ j ∈ Finset.range size, (array j : Multiset ε) := by
  induction moved generalizing array with
  | nil => simp
  | cons e moved ih =>
      rw [List.foldl_cons, ih fun other member => inside other (List.mem_cons_of_mem e member),
        sum_push (inside e List.mem_cons_self), ← Multiset.cons_coe, Multiset.add_cons,
        Multiset.cons_add]

theorem mem_pushes {moved : List ε} {e : ε} {i : Nat}
    (member : e ∈ moved.foldl (fun array e => push array (bucketOf e) e) array i) :
    e ∈ array i ∨ e ∈ moved ∧ bucketOf e = i := by
  induction moved generalizing array with
  | nil => exact .inl member
  | cons first moved ih =>
      rcases ih member with early | ⟨later, placed⟩
      · change e ∈ push array (bucketOf first) first i at early
        by_cases here : i = bucketOf first
        · subst here
          rw [push, Function.update_self, List.mem_cons] at early
          rcases early with rfl | before
          · exact .inr ⟨List.mem_cons_self, rfl⟩
          · exact .inl before
        · rw [push, Function.update_of_ne here] at early
          exact .inl early
      · exact .inr ⟨List.mem_cons_of_mem first later, placed⟩

theorem sum_divide {size i : Nat} (inside : i < size)
    (within : ∀ e ∈ array i, bucketOf e < size) :
    ∑ j ∈ Finset.range size, (divide bucketOf i array j : Multiset ε) =
      ∑ j ∈ Finset.range size, (array j : Multiset ε) := by
  have exchanged := sum_update array inside ((array i).filter fun e => bucketOf e = i)
  have parts : (array i : Multiset ε) = ((array i).filter fun e => bucketOf e ≠ i : List ε) +
      ((array i).filter fun e => bucketOf e = i : List ε) := by
    have split := List.filter_append_perm (fun e => decide (bucketOf e = i)) (array i)
    rw [← Multiset.coe_eq_coe, ← Multiset.coe_add, add_comm] at split
    simpa using split.symm
  rw [parts, ← add_assoc] at exchanged
  rw [divide, sum_pushes fun e member => within e (List.mem_of_mem_filter member), add_comm]
  exact add_right_cancel exchanged

theorem mem_divide {i j : Nat} {e : ε} (member : e ∈ divide bucketOf i array j) :
    bucketOf e = j ∧ (e ∈ array i) ∨ j ≠ i ∧ e ∈ array j := by
  rcases mem_pushes member with stays | ⟨moves, placed⟩
  · by_cases here : j = i
    · subst here
      rw [Function.update_self, List.mem_filter, decide_eq_true_eq] at stays
      exact .inl ⟨stays.2, stays.1⟩
    · rw [Function.update_of_ne here] at stays
      exact .inr ⟨here, stays⟩
  · exact .inl ⟨placed, List.mem_of_mem_filter moves⟩

end Divide

/-! ## Growing -/

section Grow

variable {least : Nat} {hashOf : ε → Nat} {t : Table ε} {e : ε}

/-- A table with the same elements, each in the bucket of its hash. -/
structure Rearranged (least : Nat) (hashOf : ε → Nat) (t t' : Table ε) : Prop where
  wf : t'.Wf least hashOf
  content : t'.content = t.content
  use : t'.use = t.use

theorem Rearranged.refl (wf : t.Wf least hashOf) : Rearranged least hashOf t t := ⟨wf, rfl, rfl⟩

theorem Rearranged.trans {t' t'' : Table ε} (first : Rearranged least hashOf t t')
    (second : Rearranged least hashOf t' t'') : Rearranged least hashOf t t'' :=
  ⟨second.wf, second.content.trans first.content, second.use.trans first.use⟩

/-- The upper half of a doubled table is empty. -/
theorem content_doubled (t : Table ε) : (t.resize true).content = t.content := by
  unfold content resize
  rw [if_pos rfl, Nat.mul_two, Finset.sum_range_add]
  have lower : ∀ i ∈ Finset.range t.size,
      ((if t.size ≤ i ∧ i < t.size + t.size then [] else t.array i : List ε) : Multiset ε) =
        t.array i := fun i member => by
    rw [if_neg fun both => absurd (Finset.mem_range.mp member) (Nat.not_lt.mpr both.1)]
  have upper : ∀ i ∈ Finset.range t.size,
      ((if t.size ≤ t.size + i ∧ t.size + i < t.size + t.size then []
        else t.array (t.size + i) : List ε) : Multiset ε) = 0 := fun i member => by
    rw [if_pos ⟨Nat.le_add_right _ _, Nat.add_lt_add_left (Finset.mem_range.mp member) _⟩]
    rfl
  rw [Finset.sum_congr rfl lower, Finset.sum_congr rfl upper, Finset.sum_const_zero, add_zero]

theorem rearranged_resize (wf : t.Wf least hashOf) (complete : t.split = t.size / 2)
    (granted : Bool) : Rearranged least hashOf t (t.resize granted) := by
  cases granted with
  | false => exact .refl wf
  | true =>
      obtain ⟨even, positive⟩ := wf.halves
      refine ⟨⟨wf.positive, wf.even, ?_, Nat.zero_le _, ?_⟩, content_doubled t, rfl⟩
      · obtain ⟨k, sized⟩ := wf.shape
        exact ⟨k + 1, by rw [pow_succ, ← Nat.mul_assoc, ← sized]; rfl⟩
      · intro i e inside member
        have size : (t.resize true).size = 2 * t.size := Nat.mul_comm _ _
        change e ∈ (if t.size ≤ i ∧ i < t.size * 2 then [] else t.array i) at member
        rw [slot_doubled even complete (t.resize true) size rfl positive]
        by_cases upper : t.size ≤ i
        · rw [if_pos ⟨upper, by omega⟩] at member
          cases member
        · rw [if_neg (mt And.left upper)] at member
          exact wf.placed i e (by omega) member

theorem rearranged_divideNext (wf : t.Wf least hashOf) (partly : t.split ≠ t.size / 2) :
    Rearranged least hashOf t (t.divideNext hashOf) := by
  obtain ⟨even, positive⟩ := wf.halves
  have bounded := wf.bounded
  have slots : ∀ e ∈ t.array t.split, t.further.slot (hashOf e) < t.size := fun e _ =>
    slot_lt (t := t.further) even positive
  have content : (t.divideNext hashOf).content = t.content :=
    @sum_divide ε (fun e => t.further.slot (hashOf e)) t.array t.size t.split
      (by omega : t.split < t.size) slots
  refine ⟨⟨wf.positive, wf.even, wf.shape, ?_, ?_⟩, content, rfl⟩
  · show t.split + 1 ≤ t.size / 2
    omega
  · intro i e inside member
    rcases mem_divide member with ⟨placed, _⟩ | ⟨apart, member⟩
    · exact placed
    · have before := wf.placed i e inside member
      have after := slot_further even t.further rfl rfl (by rw [before]; exact apart)
      exact after.trans before

theorem rearranged_rehash (wf : t.Wf least hashOf) (granted : Bool) :
    Rearranged least hashOf t (t.rehash hashOf granted) := by
  unfold rehash
  split
  · exact .refl wf
  · rename_i partly
    have divided := rearranged_divideNext wf partly
    split
    · rename_i last
      exact divided.trans (rearranged_resize divided.wf last granted)
    · exact divided

/-- A new element joins the others. -/
structure Joined (least : Nat) (hashOf : ε → Nat) (t : Table ε) (e : ε) (t' : Table ε) : Prop where
  wf : t'.Wf least hashOf
  content : t'.content = e ::ₘ t.content
  use : t'.use = t.use + 1

theorem joined_put (wf : t.Wf least hashOf) (e : ε) : Joined least hashOf t e (t.put hashOf e) := by
  refine ⟨⟨wf.positive, wf.even, wf.shape, wf.bounded, ?_⟩, sum_push (wf.slot_lt _) e, rfl⟩
  intro i other inside member
  change other ∈ push t.array (t.slot (hashOf e)) e i at member
  by_cases here : i = t.slot (hashOf e)
  · rw [here, push, Function.update_self, List.mem_cons] at member
    rcases member with rfl | member
    · exact here.symm
    · rw [here]
      exact wf.placed _ other (wf.slot_lt _) member
  · rw [push, Function.update_of_ne here] at member
    exact wf.placed i other inside member

theorem joined_insert (wf : t.Wf least hashOf) (granted : Bool) (e : ε) :
    Joined least hashOf t e (t.insert hashOf granted e) := by
  have put := joined_put wf e
  unfold insert
  split
  · have after := rearranged_rehash put.wf granted
    exact ⟨after.wf, after.content.trans put.content, after.use.trans put.use⟩
  · exact put

end Grow

/-! ## Shrinking -/

section Shrink

variable {least : Nat} {hashOf : ε → Nat} {t : Table ε} {e : ε}

/-- The buckets above the divided ones are empty. -/
theorem Wf.empty_above (wf : t.Wf least hashOf) {i : Nat} (above : t.split + t.size / 2 ≤ i)
    (inside : i < t.size) : t.array i = [] := by
  obtain ⟨even, positive⟩ := wf.halves
  refine List.eq_nil_iff_forall_not_mem.mpr fun e member => ?_
  have placed := wf.placed i e inside member
  have bound := Nat.mod_lt (hashOf e) positive
  rcases @slot_cases _ t _ (hashOf e) even with ⟨_, at_⟩ | ⟨_, _, at_⟩ | ⟨_, _, at_⟩ <;> omega

theorem rearranged_reduce (wf : t.Wf least hashOf) (whole : t.split = 0) :
    Rearranged least hashOf t (t.reduce least) := by
  unfold reduce
  split
  · exact .refl wf
  · rename_i large
    obtain ⟨even, positive⟩ := wf.halves
    obtain ⟨k, sized⟩ := wf.shape
    obtain ⟨quarter, evenLeast⟩ := wf.even
    have growing : k ≠ 0 := by
      rintro rfl
      rw [pow_zero, Nat.mul_one] at sized
      have := wf.positive
      omega
    obtain ⟨k, rfl⟩ := Nat.exists_eq_succ_of_ne_zero growing
    have halfSize : t.size / 2 = least * 2 ^ k := by
      rw [sized, pow_succ, ← Nat.mul_assoc, Nat.mul_div_cancel _ (by decide)]
    have quartered : t.size / 2 = 2 * (t.size / 2 / 2) := by
      have : t.size / 2 = 2 * (quarter * 2 ^ k) := by rw [halfSize, evenLeast, Nat.mul_assoc]
      omega
    have content : ({ t with size := t.size / 2, split := t.size / 2 / 2 } : Table ε).content =
        t.content := by
      have upper : ∀ i ∈ Finset.range (t.size / 2), (t.array (t.size / 2 + i) : Multiset ε) = 0 :=
        fun i member => by
          rw [wf.empty_above (by omega) (by have := Finset.mem_range.mp member; omega)]
          rfl
      unfold content
      conv_rhs => rw [even, Nat.two_mul, Finset.sum_range_add, Finset.sum_congr rfl upper,
        Finset.sum_const_zero, add_zero]
    refine ⟨⟨wf.positive, wf.even, ⟨k, halfSize⟩, Nat.le_refl _, ?_⟩, content, rfl⟩
    intro i e inside member
    have inside : i < t.size / 2 := inside
    rw [slot_halved even whole _ rfl quartered rfl (by omega)]
    exact wf.placed i e (by omega) member

theorem rearranged_joinLast (wf : t.Wf least hashOf) (divided : t.split ≠ 0) :
    Rearranged least hashOf t t.joinLast := by
  obtain ⟨even, positive⟩ := wf.halves
  have bounded := wf.bounded
  have lower : t.split - 1 < t.size := by omega
  have upper : t.split - 1 + t.size / 2 < t.size := by omega
  have apart : t.split - 1 + t.size / 2 ≠ t.split - 1 := by omega
  have content : t.joinLast.content = t.content := by
    have emptied := sum_update (Function.update t.array (t.split - 1)
      (t.array (t.split - 1) ++ t.array (t.split - 1 + t.size / 2))) upper []
    have appended := sum_update t.array lower
      (t.array (t.split - 1) ++ t.array (t.split - 1 + t.size / 2))
    rw [Function.update_of_ne apart] at emptied
    rw [← Multiset.coe_add, ← add_assoc, add_right_comm] at appended
    have both := add_right_cancel appended
    rw [both, Multiset.coe_nil, add_zero] at emptied
    exact add_right_cancel emptied
  refine ⟨⟨wf.positive, wf.even, wf.shape, ?_, ?_⟩, content, rfl⟩
  · show t.split - 1 ≤ t.size / 2
    omega
  · intro i e inside member
    have joined := @slot_joined _ t _ (hashOf e) even bounded t.joinLast rfl
      (show t.split = t.split - 1 + 1 by omega)
    change e ∈ Function.update (Function.update t.array (t.split - 1)
      (t.array (t.split - 1) ++ t.array (t.split - 1 + t.size / 2)))
      (t.split - 1 + t.size / 2) [] i at member
    change t.joinLast.slot (hashOf e) =
      if t.slot (hashOf e) = t.split - 1 + t.size / 2 then t.split - 1 else t.slot (hashOf e) at joined
    rw [joined]
    by_cases high : i = t.split - 1 + t.size / 2
    · rw [high, Function.update_self] at member
      cases member
    · rw [Function.update_of_ne high] at member
      by_cases low : i = t.split - 1
      · rw [low, Function.update_self, List.mem_append] at member
        rcases member with member | member
        · rw [wf.placed _ e lower member, if_neg apart.symm, low]
        · rw [wf.placed _ e upper member, if_pos rfl, low]
      · rw [Function.update_of_ne low] at member
        rw [wf.placed i e inside member, if_neg high]

theorem joinLast_of_empty (empty : t.array (t.split - 1 + t.size / 2) = []) :
    t.joinLast = { t with split := t.split - 1 } := by
  unfold joinLast
  rw [empty, List.append_nil, Function.update_eq_self, ← empty, Function.update_eq_self]

theorem rearranged_join (wf : t.Wf least hashOf) (times : Nat) :
    Rearranged least hashOf t (join times t) := by
  induction times generalizing t with
  | zero => exact .refl wf
  | succ times ih =>
      rw [join]
      split
      · exact .refl wf
      · rename_i divided
        have joined := rearranged_joinLast wf divided
        split
        · rename_i empty
          rw [← joinLast_of_empty empty]
          exact joined.trans (ih joined.wf)
        · exact joined

theorem rearranged_remerge (wf : t.Wf least hashOf) :
    Rearranged least hashOf t (t.remerge least) := by
  unfold remerge
  split
  · rename_i whole
    have reduced := rearranged_reduce wf whole
    exact reduced.trans (rearranged_join reduced.wf 8)
  · exact rearranged_join wf 8

theorem rearranged_settle (wf : t.Wf least hashOf) : (t.settle least).Wf least hashOf ∧
    (t.settle least).content = t.content ∧ (t.settle least).use = t.use - 1 := by
  have fewer : ({ t with use := t.use - 1 } : Table ε).Wf least hashOf := { wf with }
  unfold settle
  split
  · have after := rearranged_remerge fewer
    exact ⟨after.wf, after.content, after.use⟩
  · exact ⟨fewer, rfl, rfl⟩

variable [DecidableEq ε]

/-- An element that is there can be taken out. -/
theorem take_of_mem (wf : t.Wf least hashOf) (member : e ∈ t.content) :
    ∃ t', t.take hashOf e = some t' ∧ t'.Wf least hashOf ∧ t.content = e ::ₘ t'.content ∧
      t'.use = t.use := by
  have here := wf.mem_content_iff.mp member
  unfold take
  rw [if_pos here]
  refine ⟨_, rfl, ⟨wf.positive, wf.even, wf.shape, wf.bounded, ?_⟩, ?_, rfl⟩
  · intro i other inside member
    change other ∈ Function.update t.array (t.slot (hashOf e))
      ((t.array (t.slot (hashOf e))).erase e) i at member
    by_cases same : i = t.slot (hashOf e)
    · rw [same, Function.update_self] at member
      rw [same]
      exact wf.placed _ other (wf.slot_lt _) (List.mem_of_mem_erase member)
    · rw [Function.update_of_ne same] at member
      exact wf.placed i other inside member
  · have exchanged := sum_update t.array (wf.slot_lt (hashOf e))
      ((t.array (t.slot (hashOf e))).erase e)
    have bucket : (t.array (t.slot (hashOf e)) : Multiset ε) =
        e ::ₘ ((t.array (t.slot (hashOf e))).erase e : List ε) :=
      Multiset.coe_eq_coe.mpr (List.perm_cons_erase here)
    rw [bucket, Multiset.add_cons, ← Multiset.cons_add] at exchanged
    exact (add_right_cancel exchanged).symm

end Shrink

theorem wf_empty {least : Nat} (positive : 0 < least) (even : 2 ∣ least) (hashOf : ε → Nat) :
    (empty least : Table ε).Wf least hashOf :=
  ⟨positive, even, ⟨0, (Nat.mul_one least).symm⟩, Nat.zero_le _, fun _ _ _ member => by cases member⟩

theorem content_empty (least : Nat) : (empty least : Table ε).content = 0 :=
  Finset.sum_const_zero

end Table

end LinearHash
