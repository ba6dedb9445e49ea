import Mathlib.Data.Finset.Card
import NosqlFS.Libfuse.Tree

/-!
# Numbers for nodes

The next number is the next one that no node has.  Numbers are used again after all have
been used, but then the generation is another: number and generation together are counted
upwards.
-/

namespace NosqlFS

namespace Libfuse

open LinearHash LinearHash.Table

namespace Fuse

/-- Generation and counter as one number. -/
def stamp (f : Fuse) : Nat := f.generation * 2 ^ 32 + f.ctr

/-- The counters are below their wrap. -/
structure Counting (f : Fuse) : Prop where
  ctr : f.ctr < 2 ^ 32
  generation : f.generation < 2 ^ 32

/-- One candidate further. -/
def further (f : Fuse) : Fuse :=
  { f with
    ctr := (f.ctr + 1) % 2 ^ 32
    generation := if (f.ctr + 1) % 2 ^ 32 = 0 then (f.generation + 1) % 2 ^ 32 else f.generation }

/-- The number cannot be given to a node. -/
def isTaken (f : Fuse) (nodeid : Nat) : Prop :=
  nodeid = 0 ∨ nodeid = fuseUnknownIno ∨ (f.getNodeNocheck nodeid).isSome = true

variable {f f' : Fuse} {nodeid : Nat}

theorem nextIdWithin_of_taken (tries : Nat) (taken : f.further.isTaken f.further.ctr) :
    nextIdWithin (tries + 1) f = nextIdWithin tries f.further := if_pos taken

theorem nextIdWithin_of_not_taken (tries : Nat) (free : ¬ f.further.isTaken f.further.ctr) :
    nextIdWithin (tries + 1) f = some (f.further.ctr, f.further) := if_neg free

theorem Counting.further (counting : f.Counting) : f.further.Counting ∧
    f.further.stamp = (f.stamp + 1) % 2 ^ 64 := by
  obtain ⟨ctr, generation⟩ := counting
  have split : (2 : Nat) ^ 64 = 2 ^ 32 * 2 ^ 32 := by norm_num
  by_cases wraps : (f.ctr + 1) % 2 ^ 32 = 0
  · have last : f.ctr + 1 = 2 ^ 32 := by omega
    refine ⟨⟨Nat.mod_lt _ (by norm_num), ?_⟩, ?_⟩
    · change (if (f.ctr + 1) % 2 ^ 32 = 0 then (f.generation + 1) % 2 ^ 32 else f.generation) < _
      rw [if_pos wraps]
      exact Nat.mod_lt _ (by norm_num)
    · change (if (f.ctr + 1) % 2 ^ 32 = 0 then (f.generation + 1) % 2 ^ 32 else f.generation) *
        2 ^ 32 + (f.ctr + 1) % 2 ^ 32 = (f.generation * 2 ^ 32 + f.ctr + 1) % 2 ^ 64
      rw [if_pos wraps, wraps, Nat.add_assoc, last]
      omega
  · have small : f.ctr + 1 < 2 ^ 32 := by omega
    refine ⟨⟨Nat.mod_lt _ (by norm_num), ?_⟩, ?_⟩
    · change (if (f.ctr + 1) % 2 ^ 32 = 0 then (f.generation + 1) % 2 ^ 32 else f.generation) < _
      rwa [if_neg wraps]
    · change (if (f.ctr + 1) % 2 ^ 32 = 0 then (f.generation + 1) % 2 ^ 32 else f.generation) *
        2 ^ 32 + (f.ctr + 1) % 2 ^ 32 = (f.generation * 2 ^ 32 + f.ctr + 1) % 2 ^ 64
      rw [if_neg wraps]
      omega

/-- The state after some candidates. -/
theorem iterate_further (counting : f.Counting) (times : Nat) :
    (Fuse.further^[times] f).Counting ∧
      (Fuse.further^[times] f).stamp = (f.stamp + times) % 2 ^ 64 ∧
      ∃ ctr generation, Fuse.further^[times] f = { f with ctr := ctr, generation := generation } := by
  induction times with
  | zero =>
      refine ⟨counting, ?_, f.ctr, f.generation, rfl⟩
      obtain ⟨ctr, generation⟩ := counting
      rw [Function.iterate_zero, id, Nat.add_zero, Nat.mod_eq_of_lt]
      unfold stamp
      omega
  | succ times ih =>
      obtain ⟨counted, stamp, ctr, generation, same⟩ := ih
      rw [Function.iterate_succ_apply']
      refine ⟨counted.further.1, ?_, ?_⟩
      · rw [counted.further.2, stamp]
        omega
      · rw [same]
        exact ⟨_, _, rfl⟩

theorem ctr_iterate (counting : f.Counting) (times : Nat) :
    (Fuse.further^[times] f).ctr = (f.ctr + times) % 2 ^ 32 := by
  obtain ⟨counted, stamp, -⟩ := iterate_further counting times
  have bound := counted.ctr
  unfold Fuse.stamp at stamp
  omega

theorem isTaken_iterate (counting : f.Counting) (times : Nat) :
    (Fuse.further^[times] f).isTaken = f.isTaken := by
  obtain ⟨-, -, ctr, generation, same⟩ := iterate_further counting times
  rw [same]
  rfl

/-- The first candidate that is free is the next number. -/
theorem nextIdWithin_of_free (counting : f.Counting) {tries i : Nat} (inside : i < tries)
    (free : ¬ f.isTaken ((f.ctr + i + 1) % 2 ^ 32)) :
    ∃ times, nextIdWithin tries f =
        some ((Fuse.further^[times + 1] f).ctr, Fuse.further^[times + 1] f) ∧
      times ≤ i ∧ ¬ f.isTaken (Fuse.further^[times + 1] f).ctr := by
  induction tries generalizing f i with
  | zero => exact absurd inside (Nat.not_lt_zero i)
  | succ tries ih =>
      have once := isTaken_iterate counting 1
      have next := ctr_iterate counting 1
      rw [Function.iterate_one] at once next
      by_cases taken : f.further.isTaken f.further.ctr
      · rw [nextIdWithin_of_taken tries taken]
        cases i with
        | zero =>
            rw [next, once] at taken
            exact absurd taken free
        | succ i =>
            have later : ¬ f.further.isTaken ((f.further.ctr + i + 1) % 2 ^ 32) := by
              rw [once, next]
              intro taken
              refine free ?_
              rwa [show (f.ctr + (i + 1) + 1) % 2 ^ 32 = ((f.ctr + 1) % 2 ^ 32 + i + 1) % 2 ^ 32 by
                omega]
            obtain ⟨times, found, within, unused⟩ :=
              ih counting.further.1 (Nat.lt_of_succ_lt_succ inside) later
            rw [once] at unused
            refine ⟨times + 1, ?_, Nat.succ_le_succ within, ?_⟩
            · rw [Function.iterate_succ_apply]
              exact found
            · rw [Function.iterate_succ_apply]
              exact unused
      · rw [nextIdWithin_of_not_taken tries taken]
        rw [once] at taken
        exact ⟨0, rfl, Nat.zero_le i, taken⟩

/-- Among more candidates than there are nodes one is free. -/
theorem exists_free (tree : Tree f) (room : f.idTable.use + 3 ≤ 2 ^ 32) :
    ∃ i, i < f.idTable.use + 3 ∧ ¬ f.isTaken ((f.ctr + i + 1) % 2 ^ 32) := by
  classical
  let candidates := (Finset.range (f.idTable.use + 3)).image fun i => (f.ctr + i + 1) % 2 ^ 32
  let numbers := f.idTable.content.toFinset.image fun a => (f.nodeidOf a).getD 0
  have many : candidates.card = f.idTable.use + 3 := by
    rw [Finset.card_image_of_injOn, Finset.card_range]
    intro i first j second same
    rw [Finset.coe_range, Set.mem_Iio] at first second
    change (f.ctr + i + 1) % 2 ^ 32 = (f.ctr + j + 1) % 2 ^ 32 at same
    omega
  have few : ({0, fuseUnknownIno} ∪ numbers).card < candidates.card := by
    have nodes : numbers.card ≤ f.idTable.use := by
      rw [tree.idUse]
      exact Finset.card_image_le.trans (Multiset.toFinset_card_le _)
    have special : ({0, fuseUnknownIno} : Finset Nat).card ≤ 2 := Finset.card_le_two
    have all := Finset.card_union_le {0, fuseUnknownIno} numbers
    omega
  obtain ⟨nodeid, candidate, free⟩ := Finset.exists_mem_notMem_of_card_lt_card few
  obtain ⟨i, inside, rfl⟩ := Finset.mem_image.mp candidate
  refine ⟨i, Finset.mem_range.mp inside, fun taken => free ?_⟩
  rw [Finset.mem_union, Finset.mem_insert, Finset.mem_singleton]
  rcases taken with zero | unknown | used
  · exact .inl (.inl zero)
  · exact .inl (.inr unknown)
  · obtain ⟨a, found⟩ := Option.isSome_iff_exists.mp used
    have numbered := tree.getNode_eq_some_iff.mp found
    refine .inr (Finset.mem_image.mpr ⟨a, ?_, by rw [numbered]; rfl⟩)
    rw [Multiset.mem_toFinset, tree.idContent, numbered]
    rfl

/-- As long as there are numbers that no node has, the next number is one of them. -/
theorem nextId_spec (tree : Tree f) (counting : f.Counting)
    (room : f.idTable.use + 3 ≤ 2 ^ 32) :
    ∃ nodeid generation skipped, f.nextId =
        some (nodeid, { f with ctr := nodeid, generation := generation }) ∧
      0 < nodeid ∧ nodeid < fuseUnknownIno ∧ (∀ a, f.nodeidOf a ≠ some nodeid) ∧
      generation < 2 ^ 32 ∧
      generation * 2 ^ 32 + nodeid = (f.stamp + skipped) % 2 ^ 64 ∧
      0 < skipped ∧ skipped ≤ f.idTable.use + 3 := by
  obtain ⟨i, inside, free⟩ := exists_free tree room
  obtain ⟨times, found, within, unused⟩ := nextIdWithin_of_free counting inside free
  obtain ⟨counted, stamp, ctr, generation, same⟩ := iterate_further counting (times + 1)
  rw [same] at found counted stamp unused
  unfold isTaken at unused
  rw [not_or, not_or] at unused
  obtain ⟨positive, known, unused⟩ := unused
  change ctr ≠ 0 at positive
  change ctr ≠ fuseUnknownIno at known
  have bound : ctr < 2 ^ 32 := counted.ctr
  refine ⟨ctr, generation, times + 1, found, Nat.pos_of_ne_zero positive, ?_, ?_,
    counted.generation, stamp, Nat.succ_pos times, by omega⟩
  · unfold fuseUnknownIno at known ⊢
    omega
  · rw [Option.not_isSome_iff_eq_none, tree.getNodeNocheck_eq_none_iff] at unused
    exact unused

end Fuse

end Libfuse

end NosqlFS
