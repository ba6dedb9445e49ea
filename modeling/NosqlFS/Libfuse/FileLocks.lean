import NosqlFS.Text.Printf

/-!
# Locks on the bytes of a file

libfuse keeps the byte ranges that the openers of a file have locked in one list.  A new
range replaces what its owner has held there: ranges of the same type are joined, others
are cut or split.  The list means a map from owners and bytes to types.
-/

namespace NosqlFS

namespace Libfuse

/-- `F_RDLCK`, `F_WRLCK` and `F_UNLCK` -/
inductive LockType where
  | rdlck
  | wrlck
  | unlck
  deriving DecidableEq, Repr

/-- `struct lock` -/
structure Lock where
  type : LockType
  start : Int
  stop : Int
  pid : Int
  owner : Nat
  deriving DecidableEq, Repr

/-- `struct flock` -/
structure Flock where
  type : LockType
  start : Int
  len : Int
  pid : Int
  deriving DecidableEq, Repr

/-- `OFFSET_MAX` -/
def offsetMax : Int := 2 ^ 63 - 1

def ENOLCK : Int := -37

def ENOSYS : Int := -38

def flockToLock (flock : Flock) (owner : Nat) : Lock :=
  ⟨flock.type, flock.start, if flock.len ≠ 0 then flock.start + flock.len - 1 else offsetMax,
    flock.pid, owner⟩

def lockToFlock (lock : Lock) : Flock :=
  ⟨lock.type, lock.start, if lock.stop = offsetMax then 0 else lock.stop - lock.start + 1, lock.pid⟩

/-- The first lock of another owner that gets in the way. -/
def locksConflict (locks : List Lock) (lock : Lock) : Option Lock :=
  locks.find? fun l => l.owner ≠ lock.owner ∧ lock.start ≤ l.stop ∧ l.start ≤ lock.stop ∧
    (l.type = .wrlck ∨ lock.type = .wrlck)

/-- What follows the loop of `locks_insert`. -/
def insertHere (lock : Lock) (rest : List Lock) : List Lock :=
  if lock.type ≠ .unlck then lock :: rest else rest

/-- The range that has taken in another one. -/
def Lock.join (lock l : Lock) : Lock := { lock with
  start := if l.start < lock.start then l.start else lock.start
  stop := if lock.stop < l.stop then l.stop else lock.stop }

/-- The loop of `locks_insert`; it has one spare lock or none, and `none` is an access to the
spare lock without there being one. -/
def locksLoop (lock : Lock) (spare : Bool) : List Lock → Option (List Lock)
  | [] => some (insertHere lock [])
  | l :: rest =>
      if l.owner ≠ lock.owner then (locksLoop lock spare rest).map (l :: ·)
      else if lock.type = l.type then
        if l.stop < lock.start - 1 then (locksLoop lock spare rest).map (l :: ·)
        else if lock.stop < l.start - 1 then some (insertHere lock (l :: rest))
        else if l.start ≤ lock.start ∧ lock.stop ≤ l.stop then some (l :: rest)
        else locksLoop (lock.join l) spare rest
      else if l.stop < lock.start then (locksLoop lock spare rest).map (l :: ·)
      else if lock.stop < l.start then some (insertHere lock (l :: rest))
      else if lock.start ≤ l.start ∧ l.stop ≤ lock.stop then locksLoop lock spare rest
      else if l.stop ≤ lock.stop then
        (locksLoop lock spare rest).map ({ l with stop := lock.start - 1 } :: ·)
      else if lock.start ≤ l.start then
        some (insertHere lock ({ l with start := lock.stop + 1 } :: rest))
      else if spare then
        (locksLoop lock false ({ l with start := lock.stop + 1 } :: rest)).map
          ({ l with stop := lock.start - 1 } :: ·)
      else none
termination_by locks => (locks.length, spare.toNat)

/-- The result is `-ENOLCK` or zero; a range that unlocks everything needs no memory. -/
def locksInsert (locks : List Lock) (lock : Lock) (granted : Bool) : Option (Int × List Lock) :=
  let needs := lock.type ≠ .unlck ∨ lock.start ≠ 0 ∨ lock.stop ≠ offsetMax
  if needs ∧ granted = false then some (ENOLCK, locks)
  else (locksLoop lock (decide needs) locks).map fun after => (0, after)

/-- A filesystem may have no operation for flushing a file. -/
def fuseFsFlush (flush : Option Int) : Int := flush.getD ENOSYS

/-- A filesystem may have no operation for locking; it is handed the range by a pointer. -/
def fuseFsLock (op : Option (Flock → Int × Flock)) (lock : Flock) : Int × Flock :=
  match op with
  | some operation => operation lock
  | none => (ENOSYS, lock)

/-- The range that a closed file no longer locks. -/
def wholeFile : Flock := ⟨.unlck, 0, 0, 0⟩

/-- Closing a file: `locks_insert` is called for the range that the filesystem leaves behind,
and what it returns is not looked at. -/
def fuseFlushCommon (flush : Option Int) (op : Option (Flock → Int × Flock)) (locks : List Lock)
    (owner : Nat) (granted : Bool) : Option (Int × List Lock) :=
  let err := fuseFsFlush flush
  let errlock := fuseFsLock op wholeFile
  if errlock.1 ≠ ENOSYS then
    (locksInsert locks (flockToLock errlock.2 owner) granted).map fun (_, after) =>
      (if err = ENOSYS then 0 else err, after)
  else some (err, locks)

/-! ## What the list means -/

/-- The range covers a byte of an owner with a type. -/
def Lock.Covers (l : Lock) (owner : Nat) (byte : Int) (type : LockType) : Prop :=
  l.owner = owner ∧ l.start ≤ byte ∧ byte ≤ l.stop ∧ l.type = type

def Held (locks : List Lock) (owner : Nat) (byte : Int) (type : LockType) : Prop :=
  ∃ l ∈ locks, l.Covers owner byte type

/-- A range inside the file that locks something. -/
structure Lock.Valid (l : Lock) : Prop where
  lower : 0 ≤ l.start
  ordered : l.start ≤ l.stop
  upper : l.stop ≤ offsetMax

/-- A range of an owner lies behind another one, and touches it only if it has another
type. -/
def Lock.Behind (l later : Lock) : Prop :=
  later.owner = l.owner → l.stop < later.start ∧ (later.type = l.type → l.stop + 1 < later.start)

/-- The ranges of each owner stand in order, are disjoint and joined wherever they can be. -/
structure Tidy (locks : List Lock) : Prop where
  sorted : locks.Pairwise Lock.Behind
  valid : ∀ l ∈ locks, l.Valid
  locked : ∀ l ∈ locks, l.type ≠ .unlck

section Meaning

variable {locks rest : List Lock} {l lock : Lock} {owner : Nat} {byte : Int} {type : LockType}

theorem held_cons_iff : Held (l :: rest) owner byte type ↔
    l.Covers owner byte type ∨ Held rest owner byte type := by
  simp only [Held, List.mem_cons, or_and_right, exists_or, exists_eq_left]

theorem Tidy.tail (tidy : Tidy (l :: rest)) : Tidy rest :=
  ⟨(List.pairwise_cons.mp tidy.sorted).2, fun other member =>
    tidy.valid other (List.mem_cons_of_mem _ member), fun other member =>
    tidy.locked other (List.mem_cons_of_mem _ member)⟩

theorem Tidy.behind (tidy : Tidy (l :: rest)) : ∀ later ∈ rest, l.Behind later :=
  (List.pairwise_cons.mp tidy.sorted).1

/-- What is held behind a range begins behind it. -/
theorem lt_of_held (all : ∀ later ∈ rest, l.Behind later) (held : Held rest l.owner byte type) :
    l.stop < byte := by
  obtain ⟨later, member, same, start, _, _⟩ := held
  have behind := (all later member same).1
  omega

/-- A byte of an owner has one type. -/
theorem Tidy.unique (tidy : Tidy locks) {other : LockType} (first : Held locks owner byte type)
    (second : Held locks owner byte other) : type = other := by
  induction locks with
  | nil =>
      obtain ⟨_, absent, _⟩ := first
      cases absent
  | cons l rest ih =>
      rw [held_cons_iff] at first second
      rcases first with ⟨rfl, _, upper, rfl⟩ | first
      · rcases second with ⟨_, _, _, rfl⟩ | second
        · rfl
        · have := lt_of_held tidy.behind second
          omega
      · rcases second with ⟨rfl, _, upper, rfl⟩ | second
        · have := lt_of_held tidy.behind first
          omega
        · exact ih tidy.tail first second

end Meaning

/-! ## The loop -/

section Loop

variable {locks rest after : List Lock} {l lock : Lock} {spare : Bool}

theorem mem_insertHere {later : Lock} (member : later ∈ insertHere lock rest) :
    later = lock ∨ later ∈ rest := by
  unfold insertHere at member
  split at member
  · exact List.mem_cons.mp member
  · exact .inr member

@[simp]
theorem join_owner : (lock.join l).owner = lock.owner := rfl

@[simp]
theorem join_type : (lock.join l).type = lock.type := rfl

theorem join_start : (lock.join l).start = min l.start lock.start := by
  simp only [Lock.join]
  omega

theorem join_stop : (lock.join l).stop = max lock.stop l.stop := by
  simp only [Lock.join]
  omega

theorem behind_join {front : Lock} (same : l.owner = lock.owner) (type : lock.type = l.type)
    (first : front.Behind l) (second : front.Behind lock) : front.Behind (lock.join l) := by
  intro owner
  obtain ⟨before, apart⟩ := first (same.trans owner)
  obtain ⟨before', apart'⟩ := second owner
  refine ⟨by rw [join_start]; omega, fun kind => ?_⟩
  have gap := apart (type.symm.trans kind)
  have gap' := apart' kind
  rw [join_start]
  omega

/-- What stands behind a range goes on doing so. -/
theorem behind_locksLoop {front : Lock} (found : locksLoop lock spare locks = some after)
    (ordered : lock.start ≤ lock.stop) (all : ∀ later ∈ locks, front.Behind later)
    (here : front.Behind lock) : ∀ later ∈ after, front.Behind later := by
  have inserted : ∀ {lock : Lock} {rest : List Lock}, front.Behind lock →
      (∀ later ∈ rest, front.Behind later) → ∀ later ∈ insertHere lock rest, front.Behind later := by
    intro lock rest here all later member
    rcases mem_insertHere member with rfl | inside
    · exact here
    · exact all later inside
  have put : ∀ {l : Lock} {tail : List Lock}, front.Behind l →
      (∀ later ∈ tail, front.Behind later) → ∀ later ∈ l :: tail, front.Behind later := by
    intro l tail here all later member
    rcases List.mem_cons.mp member with rfl | inside
    · exact here
    · exact all later inside
  fun_induction locksLoop lock spare locks generalizing after with
  | case1 lock spare =>
      cases found
      exact inserted here all
  | case2 lock spare l rest _ ih | case3 lock spare l rest _ _ _ ih
  | case7 lock spare l rest _ _ _ ih | case10 lock spare l rest _ _ _ _ _ _ ih =>
      obtain ⟨tail, walked, rfl⟩ := Option.map_eq_some_iff.mp found
      exact put (all l List.mem_cons_self) (ih walked ordered
        (fun later member => all later (List.mem_cons_of_mem _ member)) here)
  | case4 lock spare l rest | case8 lock spare l rest =>
      cases found
      exact inserted here all
  | case5 lock spare l rest =>
      cases found
      exact all
  | case6 lock spare l rest own same _ _ _ ih =>
      refine ih found ?_ (fun later member => all later (List.mem_cons_of_mem _ member))
        (behind_join (not_not.mp own) same (all l List.mem_cons_self) here)
      rw [join_start, join_stop]
      omega
  | case9 lock spare l rest _ _ _ _ _ ih =>
      exact ih found ordered (fun later member => all later (List.mem_cons_of_mem _ member)) here
  | case11 lock spare l rest own =>
      cases found
      refine inserted here (put (fun owner => ?_) fun later member =>
        all later (List.mem_cons_of_mem _ member))
      have before := (here ((not_not.mp own).symm.trans owner)).1
      simp only
      omega
  | case12 lock l rest own _ _ _ _ _ _ ih =>
      obtain ⟨tail, walked, rfl⟩ := Option.map_eq_some_iff.mp found
      refine put (all l List.mem_cons_self) (ih walked ordered (put (fun owner => ?_)
        fun later member => all later (List.mem_cons_of_mem _ member)) here)
      have before := (here ((not_not.mp own).symm.trans owner)).1
      simp only
      omega
  | case13 => cases found

theorem Tidy.cons (tidy : Tidy rest) (all : ∀ later ∈ rest, l.Behind later) (valid : l.Valid)
    (locked : l.type ≠ .unlck) : Tidy (l :: rest) where
  sorted := List.pairwise_cons.mpr ⟨all, tidy.sorted⟩
  valid := List.forall_mem_cons.mpr ⟨valid, tidy.valid⟩
  locked := List.forall_mem_cons.mpr ⟨locked, tidy.locked⟩

theorem Tidy.insertHere (tidy : Tidy rest) (all : ∀ later ∈ rest, lock.Behind later)
    (valid : lock.Valid) : Tidy (insertHere lock rest) := by
  unfold Libfuse.insertHere
  split
  · next locked => exact tidy.cons all valid locked
  · exact tidy

/-- A range in front of the first one of its owner is in front of all. -/
theorem behind_of_lt (tidy : Tidy (l :: rest)) (own : l.owner = lock.owner)
    (before : lock.stop < l.start) (apart : l.type = lock.type → lock.stop + 1 < l.start) :
    ∀ later ∈ l :: rest, lock.Behind later := by
  have ordered := (tidy.valid l List.mem_cons_self).ordered
  refine List.forall_mem_cons.mpr ⟨fun _ => ⟨before, apart⟩, fun later member same => ?_⟩
  have beyond := (tidy.behind later member (same.trans own.symm)).1
  omega

theorem valid_join (first : lock.Valid) (second : l.Valid) : (lock.join l).Valid where
  lower := by
    rw [join_start]
    exact le_min second.lower first.lower
  ordered := by
    have ordered := first.ordered
    rw [join_start, join_stop]
    omega
  upper := by
    rw [join_stop]
    exact max_le first.upper second.upper

/-- A range may lose what is in front of a byte. -/
theorem Tidy.cutFront (tidy : Tidy (l :: rest)) (valid : lock.Valid) (beyond : lock.stop < l.stop) :
    Tidy ({ l with start := lock.stop + 1 } :: rest) := by
  have lower := valid.lower
  have ordered := valid.ordered
  have upper := (tidy.valid l List.mem_cons_self).upper
  refine tidy.tail.cons tidy.behind ⟨?_, ?_, upper⟩ (tidy.locked l List.mem_cons_self)
  · simp only
    omega
  · simp only
    omega

/-- The loop leaves the list in order. -/
theorem tidy_locksLoop (found : locksLoop lock spare locks = some after) (tidy : Tidy locks)
    (valid : lock.Valid) : Tidy after := by
  have ordered := valid.ordered
  fun_induction locksLoop lock spare locks generalizing after with
  | case1 lock spare =>
      cases found
      exact tidy.insertHere (fun _ absent => absurd absent List.not_mem_nil) valid
  | case2 lock spare l rest other ih =>
      obtain ⟨tail, walked, rfl⟩ := Option.map_eq_some_iff.mp found
      exact (ih walked tidy.tail valid ordered).cons
        (behind_locksLoop walked ordered tidy.behind fun same => absurd same.symm other)
        (tidy.valid l List.mem_cons_self) (tidy.locked l List.mem_cons_self)
  | case3 lock spare l rest _ _ before ih =>
      obtain ⟨tail, walked, rfl⟩ := Option.map_eq_some_iff.mp found
      exact (ih walked tidy.tail valid ordered).cons
        (behind_locksLoop walked ordered tidy.behind fun _ => ⟨by omega, fun _ => by omega⟩)
        (tidy.valid l List.mem_cons_self) (tidy.locked l List.mem_cons_self)
  | case4 lock spare l rest own _ _ before =>
      cases found
      exact tidy.insertHere (behind_of_lt tidy (not_not.mp own) (by omega) fun _ => by omega) valid
  | case5 lock spare l rest =>
      cases found
      exact tidy
  | case6 lock spare l rest _ _ _ _ _ ih =>
      have joined := valid_join valid (tidy.valid l List.mem_cons_self)
      exact ih found tidy.tail joined joined.ordered
  | case7 lock spare l rest _ differ before ih =>
      obtain ⟨tail, walked, rfl⟩ := Option.map_eq_some_iff.mp found
      exact (ih walked tidy.tail valid ordered).cons
        (behind_locksLoop walked ordered tidy.behind fun _ => ⟨before, fun same =>
          absurd same differ⟩)
        (tidy.valid l List.mem_cons_self) (tidy.locked l List.mem_cons_self)
  | case8 lock spare l rest own differ _ before =>
      cases found
      exact tidy.insertHere (behind_of_lt tidy (not_not.mp own) before fun same =>
        absurd same.symm differ) valid
  | case9 lock spare l rest _ _ _ _ _ ih => exact ih found tidy.tail valid ordered
  | case10 lock spare l rest _ differ reach _ outside inside ih =>
      obtain ⟨tail, walked, rfl⟩ := Option.map_eq_some_iff.mp found
      have held := tidy.valid l List.mem_cons_self
      have cut : l.start ≤ lock.start - 1 := by omega
      refine (ih walked tidy.tail valid ordered).cons (behind_locksLoop walked ordered
        (fun later member same => ?_) fun _ => ⟨Int.sub_one_lt_of_le (Int.le_refl _), fun same =>
          absurd same differ⟩)
        ⟨held.lower, cut, (by omega : lock.start - 1 ≤ l.stop).trans held.upper⟩
        (tidy.locked l List.mem_cons_self)
      have beyond := (tidy.behind later member same).1
      simp only
      omega
  | case11 lock spare l rest own differ _ _ _ beyond _ =>
      cases found
      have rest' := tidy.cutFront valid (Int.lt_of_not_ge beyond)
      exact rest'.insertHere (behind_of_lt rest' (not_not.mp own) (Int.lt_succ _) fun same =>
        absurd same.symm differ) valid
  | case12 lock l rest own differ _ _ _ beyond front ih =>
      obtain ⟨tail, walked, rfl⟩ := Option.map_eq_some_iff.mp found
      have held := tidy.valid l List.mem_cons_self
      have rest' := tidy.cutFront valid (Int.lt_of_not_ge beyond)
      refine (ih walked rest' valid ordered).cons (behind_locksLoop walked ordered
        (List.forall_mem_cons.mpr ⟨fun _ => ⟨by simp only; omega, fun _ => by simp only; omega⟩,
          fun later member same => ?_⟩) fun _ => ⟨Int.sub_one_lt_of_le (Int.le_refl _), fun same =>
          absurd same differ⟩)
        ⟨held.lower, (by omega : l.start ≤ lock.start - 1),
          (by omega : lock.start - 1 ≤ l.stop).trans held.upper⟩
        (tidy.locked l List.mem_cons_self)
      have further := (tidy.behind later member same).1
      simp only
      omega
  | case13 => cases found

theorem held_insertHere_iff {owner : Nat} {byte : Int} {type : LockType} :
    Held (insertHere lock rest) owner byte type ↔
      lock.type ≠ .unlck ∧ lock.Covers owner byte type ∨ Held rest owner byte type := by
  unfold insertHere
  split
  · next locked => rw [held_cons_iff, and_iff_right locked]
  · next unlocked =>
      constructor
      · exact .inr
      · rintro (⟨locked, _⟩ | held)
        · exact absurd locked unlocked
        · exact held

/-- The loop gives the range to its owner and leaves everything else as it is. -/
theorem held_locksLoop (found : locksLoop lock spare locks = some after) (tidy : Tidy locks)
    (valid : lock.Valid) {owner : Nat} {byte : Int} {type : LockType} :
    Held after owner byte type ↔
      if owner = lock.owner ∧ lock.start ≤ byte ∧ byte ≤ lock.stop
      then lock.type = type ∧ lock.type ≠ .unlck else Held locks owner byte type := by
  have ordered := valid.ordered
  fun_induction locksLoop lock spare locks generalizing after with
  | case1 lock spare =>
      cases found
      rw [held_insertHere_iff]
      grind [Lock.Covers, Held]
  | case2 lock spare l rest other ih =>
      obtain ⟨tail, walked, rfl⟩ := Option.map_eq_some_iff.mp found
      have later := ih walked tidy.tail valid ordered
      rw [held_cons_iff, held_cons_iff]
      grind [Lock.Covers]
  | case3 lock spare l rest own same before ih =>
      obtain ⟨tail, walked, rfl⟩ := Option.map_eq_some_iff.mp found
      have later := ih walked tidy.tail valid ordered
      rw [held_cons_iff, held_cons_iff]
      grind [Lock.Covers]
  | case4 lock spare l rest own same _ before =>
      cases found
      have ahead := behind_of_lt tidy (not_not.mp own) (by omega) fun _ => by omega
      have beyond := @lt_of_held _ lock byte type ahead
      rw [held_insertHere_iff]
      grind [Lock.Covers]
  | case5 lock spare l rest own same _ _ within =>
      cases found
      have beyond := @lt_of_held _ l byte type tidy.behind
      rw [held_cons_iff]
      have locked := tidy.locked l List.mem_cons_self
      grind [Lock.Covers]
  | case6 lock spare l rest own same touch touch' _ ih =>
      have joined := valid_join valid (tidy.valid l List.mem_cons_self)
      have later := ih found tidy.tail joined joined.ordered
      have beyond := @lt_of_held _ l byte type tidy.behind
      have locked := tidy.locked l List.mem_cons_self
      refine Iff.trans later ?_
      rw [held_cons_iff, join_start, join_stop, join_owner, join_type]
      grind [Lock.Covers]
  | case7 lock spare l rest own differ before ih =>
      obtain ⟨tail, walked, rfl⟩ := Option.map_eq_some_iff.mp found
      have later := ih walked tidy.tail valid ordered
      rw [held_cons_iff, held_cons_iff]
      grind [Lock.Covers]
  | case8 lock spare l rest own differ _ before =>
      cases found
      have ahead := behind_of_lt tidy (not_not.mp own) before fun same => absurd same.symm differ
      have beyond := @lt_of_held _ lock byte type ahead
      rw [held_insertHere_iff]
      grind [Lock.Covers]
  | case9 lock spare l rest own differ _ _ within ih =>
      have later := ih found tidy.tail valid ordered
      refine Iff.trans later ?_
      rw [held_cons_iff]
      grind [Lock.Covers]
  | case10 lock spare l rest own differ reach _ outside inside ih =>
      obtain ⟨tail, walked, rfl⟩ := Option.map_eq_some_iff.mp found
      have later := ih walked tidy.tail valid ordered
      rw [held_cons_iff, held_cons_iff]
      grind [Lock.Covers]
  | case11 lock spare l rest own differ _ _ _ beyond front =>
      cases found
      have further := @lt_of_held _ l byte type tidy.behind
      rw [held_insertHere_iff, held_cons_iff, held_cons_iff]
      grind [Lock.Covers]
  | case12 lock l rest own differ _ _ _ beyond front ih =>
      obtain ⟨tail, walked, rfl⟩ := Option.map_eq_some_iff.mp found
      have rest' := tidy.cutFront valid (Int.lt_of_not_ge beyond)
      have later := ih walked rest' valid ordered
      have further := @lt_of_held _ l byte type tidy.behind
      rw [held_cons_iff] at later
      rw [held_cons_iff, held_cons_iff]
      grind [Lock.Covers]
  | case13 => cases found

/-- There is a spare lock, or no range has to be split. -/
def Enough (lock : Lock) (spare : Bool) (locks : List Lock) : Prop :=
  spare = true ∨ ∀ l ∈ locks, l.owner = lock.owner → ¬ (l.start < lock.start ∧ lock.stop < l.stop)

theorem Enough.tail (enough : Enough lock spare (l :: rest)) : Enough lock spare rest :=
  enough.imp_right fun all other member => all other (List.mem_cons_of_mem _ member)

/-- One spare lock is enough. -/
theorem exists_locksLoop (tidy : Tidy locks) (valid : lock.Valid)
    (enough : Enough lock spare locks) : ∃ after, locksLoop lock spare locks = some after := by
  have ordered := valid.ordered
  fun_induction locksLoop lock spare locks with
  | case1 | case4 | case5 | case8 | case11 => exact ⟨_, rfl⟩
  | case2 lock spare l rest _ ih | case3 lock spare l rest _ _ _ ih
  | case7 lock spare l rest _ _ _ ih | case10 lock spare l rest _ _ _ _ _ _ ih =>
      obtain ⟨tail, walked⟩ := ih tidy.tail valid enough.tail ordered
      rw [walked]
      exact ⟨_, rfl⟩
  | case6 lock spare l rest own _ _ _ _ ih =>
      have joined := valid_join valid (tidy.valid l List.mem_cons_self)
      refine ih tidy.tail joined (enough.tail.imp_right fun all other member same inside => ?_)
        joined.ordered
      rw [join_start, join_stop] at inside
      exact all other member same (by omega)
  | case9 lock spare l rest _ _ _ _ _ ih => exact ih tidy.tail valid enough.tail ordered
  | case12 lock l rest own _ _ _ _ beyond front ih =>
      have rest' := tidy.cutFront valid (Int.lt_of_not_ge beyond)
      have further := behind_of_lt rest' (not_not.mp own) (Int.lt_succ _)
      obtain ⟨tail, walked⟩ := ih rest' valid (.inr (List.forall_mem_cons.mpr
        ⟨fun _ inside => by simp only at inside; omega, fun other member same inside => by
          have behind := (tidy.behind other member (same.trans (not_not.mp own).symm)).1
          omega⟩)) ordered
      rw [walked]
      exact ⟨_, rfl⟩
  | case13 lock spare l rest own _ _ _ _ beyond front none =>
      rcases enough with one | all
      · exact absurd one none
      · exact absurd ⟨by omega, by omega⟩ (all l List.mem_cons_self (not_not.mp own))

end Loop

/-! ## The map of a list -/

/-- Which owner has locked which byte, and how. -/
abbrev LockMap : Type := Nat → Int → Option LockType

def LockMap.assign (map : LockMap) (lock : Lock) : LockMap := fun owner byte =>
  if owner = lock.owner ∧ lock.start ≤ byte ∧ byte ≤ lock.stop then
    if lock.type = .unlck then none else some lock.type
  else map owner byte

/-- A list stands for a map. -/
def Means (locks : List Lock) (map : LockMap) : Prop :=
  ∀ owner byte type, map owner byte = some type ↔ Held locks owner byte type

section Requests

variable {locks after : List Lock} {lock : Lock} {granted : Bool} {map : LockMap}
  {requests : List (Lock × Bool)} {results : List Int}

theorem means_assign (means : Means locks map) (tidy : Tidy locks) (valid : lock.Valid)
    {spare : Bool} (found : locksLoop lock spare locks = some after) :
    Means after (map.assign lock) := by
  intro owner byte type
  refine Iff.trans ?_ (held_locksLoop found tidy valid).symm
  unfold LockMap.assign
  split
  · split
    · next unlocks =>
        constructor
        · intro absent
          cases absent
        · exact fun locked => absurd unlocks locked.2
    · next locks =>
        constructor
        · intro same
          exact ⟨Option.some.inj same, locks⟩
        · exact fun same => congrArg some same.1
  · exact means owner byte type

/-- A request is done in the map, or there is no memory and nothing changes. -/
theorem locksInsert_spec (means : Means locks map) (tidy : Tidy locks) (valid : lock.Valid) :
    ∃ result after, locksInsert locks lock granted = some (result, after) ∧ Tidy after ∧
      (result = 0 ∧ Means after (map.assign lock) ∨
        result = ENOLCK ∧ granted = false ∧ after = locks ∧
          ¬ (lock.type = .unlck ∧ lock.start = 0 ∧ lock.stop = offsetMax)) := by
  unfold locksInsert
  by_cases needs : lock.type ≠ .unlck ∨ lock.start ≠ 0 ∨ lock.stop ≠ offsetMax
  · cases granted with
    | false =>
        rw [if_pos ⟨needs, rfl⟩]
        exact ⟨ENOLCK, locks, rfl, tidy, .inr ⟨rfl, rfl, rfl, by tauto⟩⟩
    | true =>
        obtain ⟨after, found⟩ := exists_locksLoop tidy valid (.inl (decide_eq_true needs))
        rw [if_neg (fun both => by cases both.2), found]
        exact ⟨0, after, rfl, tidy_locksLoop found tidy valid, .inl ⟨rfl, means_assign means tidy
          valid found⟩⟩
  · have least : lock.start = 0 := by tauto
    have enough : Enough lock
        (decide (lock.type ≠ .unlck ∨ lock.start ≠ 0 ∨ lock.stop ≠ offsetMax)) locks :=
      .inr fun l member _ inside => by
        have lower := (tidy.valid l member).lower
        omega
    obtain ⟨after, found⟩ := exists_locksLoop tidy valid enough
    rw [if_neg (fun both => needs both.1), found]
    exact ⟨0, after, rfl, tidy_locksLoop found tidy valid, .inl ⟨rfl, means_assign means tidy
      valid found⟩⟩

/-! ## Runs -/

/-- Requests on the locks of one file; each comes with whether there is memory for it. -/
def insertAll : List Lock → List (Lock × Bool) → Option (List Int × List Lock)
  | locks, [] => some ([], locks)
  | locks, request :: requests => do
      let (result, next) ← locksInsert locks request.1 request.2
      let (results, last) ← insertAll next requests
      return (result :: results, last)

/-- The map after the requests that have succeeded. -/
def LockMap.assignAll : LockMap → List (Lock × Bool) → List Int → LockMap
  | map, request :: requests, result :: results =>
      LockMap.assignAll (if result = 0 then map.assign request.1 else map) requests results
  | map, _, _ => map

/-- No byte is locked. -/
def LockMap.free : LockMap := fun _ _ => none

theorem means_free : Means [] .free := by
  intro owner byte type
  constructor
  · intro absent
    cases absent
  · rintro ⟨_, absent, _⟩
    cases absent

theorem tidy_nil : Tidy [] :=
  ⟨.nil, fun _ absent => absurd absent List.not_mem_nil, fun _ absent => absurd absent List.not_mem_nil⟩

theorem insertAll_spec (means : Means locks map) (tidy : Tidy locks)
    (valid : ∀ request ∈ requests, request.1.Valid) :
    ∃ results after, insertAll locks requests = some (results, after) ∧ Tidy after ∧
      Means after (map.assignAll requests results) ∧
      List.Forall₂ (fun request result => result = 0 ∨ result = ENOLCK ∧ request.2 = false)
        requests results := by
  induction requests generalizing locks map with
  | nil => exact ⟨[], locks, rfl, tidy, means, .nil⟩
  | cons request requests ih =>
      obtain ⟨result, next, inserted, tidy', outcome⟩ := @locksInsert_spec locks request.1 request.2
        map means tidy (valid request List.mem_cons_self)
      have means' : Means next (if result = 0 then map.assign request.1 else map) := by
        rcases outcome with ⟨rfl, means'⟩ | ⟨rfl, _, rfl, _⟩
        · rwa [if_pos rfl]
        · rwa [if_neg (by decide)]
      obtain ⟨results, after, rest, tidy'', means'', answers⟩ :=
        ih means' tidy' fun other member => valid other (List.mem_cons_of_mem _ member)
      refine ⟨result :: results, after, ?_, tidy'', means'', .cons ?_ answers⟩
      · simp only [insertAll, inserted, Option.bind_eq_bind, Option.bind_some, rest]
        rfl
      · exact outcome.imp And.left (And.imp_right And.left)

/-! ## One list for each map -/

/-- The ranges of an owner with their types. -/
def rangesOf (locks : List Lock) (owner : Nat) : List (LockType × Int × Int) :=
  (locks.filter fun l => l.owner = owner).map fun l => (l.type, l.start, l.stop)

theorem Tidy.filter (tidy : Tidy locks) (p : Lock → Bool) : Tidy (locks.filter p) where
  sorted := tidy.sorted.filter _
  valid := fun l member => tidy.valid l (List.mem_of_mem_filter member)
  locked := fun l member => tidy.locked l (List.mem_of_mem_filter member)

theorem held_filter_iff {owner : Nat} {byte : Int} {type : LockType} :
    Held (locks.filter fun l => l.owner = owner) owner byte type ↔ Held locks owner byte type := by
  constructor
  · rintro ⟨l, member, covers⟩
    exact ⟨l, List.mem_of_mem_filter member, covers⟩
  · rintro ⟨l, member, covers⟩
    exact ⟨l, List.mem_filter.mpr ⟨member, decide_eq_true covers.1⟩, covers⟩

theorem Tidy.held_start {l : Lock} {rest : List Lock} (tidy : Tidy (l :: rest)) :
    Held (l :: rest) l.owner l.start l.type :=
  ⟨l, List.mem_cons_self, rfl, Int.le_refl _, (tidy.valid l List.mem_cons_self).ordered, rfl⟩

theorem Tidy.start_le {l : Lock} {rest : List Lock} {byte : Int} {type : LockType}
    (tidy : Tidy (l :: rest)) (held : Held (l :: rest) l.owner byte type) : l.start ≤ byte := by
  have ordered := (tidy.valid l List.mem_cons_self).ordered
  rcases held_cons_iff.mp held with covers | later
  · exact covers.2.1
  · exact ordered.trans (lt_of_held tidy.behind later).le

/-- The first range ends where its type does. -/
theorem Tidy.stop_le {l first : Lock} {rest others : List Lock} (tidy : Tidy (l :: rest))
    (own : first.owner = l.owner) (start : l.start = first.start) (type : l.type = first.type)
    (same : ∀ byte type, Held (l :: rest) l.owner byte type ↔
      Held (first :: others) l.owner byte type) : first.stop ≤ l.stop := by
  by_contra longer
  have ordered := (tidy.valid l List.mem_cons_self).ordered
  have more : Held (first :: others) l.owner (l.stop + 1) l.type :=
    ⟨first, List.mem_cons_self, own, by omega, by omega, type.symm⟩
  rcases held_cons_iff.mp ((same _ _).mpr more) with covers | ⟨later, member, owner, from_, _, kind⟩
  · have := covers.2.2.1
    omega
  · have apart := (tidy.behind later member owner).2 kind
    omega

/-- Lists of one owner that mean the same have the same ranges. -/
theorem ranges_unique {first second : List Lock} {owner : Nat} (tidy : Tidy first)
    (tidy' : Tidy second) (own : ∀ l ∈ first, l.owner = owner) (own' : ∀ l ∈ second, l.owner = owner)
    (same : ∀ byte type, Held first owner byte type ↔ Held second owner byte type) :
    first.map (fun l => (l.type, l.start, l.stop)) =
      second.map fun l => (l.type, l.start, l.stop) := by
  induction first generalizing second with
  | nil =>
      cases second with
      | nil => rfl
      | cons l rest =>
          have held := tidy'.held_start
          rw [own' l List.mem_cons_self, ← same] at held
          obtain ⟨_, absent, _⟩ := held
          cases absent
  | cons l rest ih =>
      obtain rfl := own l List.mem_cons_self
      cases second with
      | nil =>
          obtain ⟨_, absent, _⟩ := (same _ _).mp tidy.held_start
          cases absent
      | cons l' rest' =>
          have owner := own' l' List.mem_cons_self
          have held := tidy.held_start
          have held' := tidy'.held_start
          rw [owner] at held'
          have start : l.start = l'.start := by
            have lower := tidy.start_le ((same _ _).mpr held')
            have lower' := @Tidy.start_le l' rest' _ _ tidy' (owner.symm ▸ (same _ _).mp held)
            omega
          have type : l.type = l'.type := by
            rw [start] at held
            exact tidy'.unique ((same _ _).mp held) held'
          have stop : l.stop = l'.stop := by
            have upper := tidy.stop_le owner start type same
            have upper' := @Tidy.stop_le l' l rest' rest tidy' owner.symm start.symm type.symm
              (by rw [owner]; exact fun byte type => (same byte type).symm)
            omega
          have tails : ∀ byte type, Held rest l.owner byte type ↔ Held rest' l.owner byte type := by
            intro byte type'
            have whole := same byte type'
            rw [held_cons_iff, held_cons_iff] at whole
            have beyond := @lt_of_held _ l byte type' tidy.behind
            have beyond' := @lt_of_held _ l' byte type' tidy'.behind
            rw [owner] at beyond'
            grind [Lock.Covers]
          rw [List.map_cons, List.map_cons, start, type, stop]
          exact congrArg _ (ih tidy.tail tidy'.tail
            (fun other member => own other (List.mem_cons_of_mem _ member))
            (fun other member => own' other (List.mem_cons_of_mem _ member)) tails)

/-! ## Every run -/

/-- The list refines a map over every run of requests by any owners. -/
theorem locks_refine (valid : ∀ request ∈ requests, request.1.Valid) :
    ∃ results locks, insertAll [] requests = some (results, locks) ∧ Tidy locks ∧
      Means locks (LockMap.free.assignAll requests results) ∧
      List.Forall₂ (fun request result => result = 0 ∨ result = ENOLCK ∧ request.2 = false)
        requests results :=
  insertAll_spec means_free tidy_nil valid

theorem means_of_served (valid : ∀ request ∈ requests, request.1.Valid)
    (served : insertAll [] requests = some (results, locks)) :
    Tidy locks ∧ Means locks (LockMap.free.assignAll requests results) := by
  obtain ⟨_, _, served', tidy, means, _⟩ := insertAll_spec means_free tidy_nil valid
  rw [served] at served'
  cases served'
  exact ⟨tidy, means⟩

theorem flockToLock_lockToFlock (l : Lock) (ordered : l.start ≤ l.stop) :
    flockToLock (lockToFlock l) l.owner = l := by
  have stop : (if (lockToFlock l).len ≠ 0 then l.start + (lockToFlock l).len - 1 else offsetMax) =
      l.stop := by
    by_cases whole : l.stop = offsetMax
    · have len : (lockToFlock l).len = 0 := if_pos whole
      rw [if_neg (not_not.mpr len), whole]
    · have len : (lockToFlock l).len = l.stop - l.start + 1 := if_neg whole
      rw [if_pos (by omega)]
      omega
  exact congrArg (fun stop => Lock.mk l.type l.start stop l.pid l.owner) stop

/-- A lock is tested against exactly what other owners hold, and the range that is reported
is one of theirs. -/
theorem conflict_exact (valid : ∀ request ∈ requests, request.1.Valid)
    (served : insertAll [] requests = some (results, locks)) (ordered : lock.start ≤ lock.stop) :
    (∀ l, locksConflict locks lock = some l → l.owner ≠ lock.owner ∧
      (l.type = .wrlck ∨ lock.type = .wrlck) ∧ flockToLock (lockToFlock l) l.owner = l ∧
      ∃ byte, lock.start ≤ byte ∧ byte ≤ lock.stop ∧
        LockMap.free.assignAll requests results l.owner byte = some l.type) ∧
    (locksConflict locks lock = none ↔ ∀ owner byte type, owner ≠ lock.owner →
      lock.start ≤ byte → byte ≤ lock.stop →
      LockMap.free.assignAll requests results owner byte = some type →
        type ≠ .wrlck ∧ lock.type ≠ .wrlck) := by
  obtain ⟨tidy, means⟩ := means_of_served valid served
  constructor
  · intro l found
    rw [locksConflict] at found
    have hit := List.find?_some found
    have member := List.mem_of_find?_eq_some found
    obtain ⟨other, low, high, kind⟩ := of_decide_eq_true hit
    have inside := (tidy.valid l member).ordered
    exact ⟨other, kind, flockToLock_lockToFlock l inside, max l.start lock.start, by omega, by omega,
      (means _ _ _).mpr ⟨l, member, rfl, by omega, by omega, rfl⟩⟩
  · constructor
    · intro none owner byte type other low high held
      obtain ⟨l, member, rfl, lower, upper, rfl⟩ := (means _ _ _).mp held
      have missed := List.find?_eq_none.mp none l member
      have quiet : ¬ (l.type = .wrlck ∨ lock.type = .wrlck) := fun kind =>
        missed (decide_eq_true ⟨other, by omega, by omega, kind⟩)
      exact not_or.mp quiet
    · intro quiet
      refine List.find?_eq_none.mpr fun l member hit => ?_
      obtain ⟨other, low, high, kind⟩ := of_decide_eq_true hit
      have inside := (tidy.valid l member).ordered
      have clear := quiet l.owner (max l.start lock.start) l.type other (by omega) (by omega)
        ((means _ _ _).mpr ⟨l, member, rfl, by omega, by omega, rfl⟩)
      exact kind.elim clear.1 clear.2

/-- The range that unlocks everything is done without memory. -/
theorem insert_releases (valid : ∀ request ∈ requests, request.1.Valid)
    (served : insertAll [] requests = some (results, locks)) (owner : Nat) (granted : Bool) :
    ∃ after, locksInsert locks (flockToLock wholeFile owner) granted = some (0, after) ∧
      (∀ l ∈ after, l.owner ≠ owner) ∧ ∀ other byte type, other ≠ owner →
        (Held after other byte type ↔ Held locks other byte type) := by
  obtain ⟨tidy, means⟩ := means_of_served valid served
  have whole : (flockToLock wholeFile owner).Valid := by
    exact ⟨Int.le_refl _, (by decide : (0 : Int) ≤ offsetMax), Int.le_refl _⟩
  obtain ⟨result, after, inserted, tidy', outcome⟩ :=
    @locksInsert_spec locks _ granted _ means tidy whole
  rcases outcome with ⟨rfl, means'⟩ | ⟨_, _, _, part⟩
  · refine ⟨after, inserted, fun l member own => ?_, fun other byte type differs => ?_⟩
    · have lower := (tidy'.valid l member).lower
      have upper := (tidy'.valid l member).upper
      have ordered := (tidy'.valid l member).ordered
      have held := (means' owner l.start l.type).mpr
        ⟨l, member, own, Int.le_refl _, ordered, rfl⟩
      have kind : (flockToLock wholeFile owner).type = .unlck := rfl
      rw [LockMap.assign, if_pos ⟨rfl, lower, ordered.trans upper⟩, if_pos kind] at held
      cases held
    · rw [← means' other byte type, ← means other byte type, LockMap.assign,
        if_neg fun same => differs same.1]
  · exact absurd ⟨rfl, rfl, rfl⟩ part

/-- Closing a file gives up all locks of its owner and no others, also without memory and
whatever the filesystem answers, unless it has no locks at all. -/
theorem flush_releases (valid : ∀ request ∈ requests, request.1.Valid)
    (served : insertAll [] requests = some (results, locks)) (flush : Option Int)
    {op : Option (Flock → Int × Flock)} (leaves : (fuseFsLock op wholeFile).2 = wholeFile)
    (owner : Nat) (granted : Bool) :
    ∃ err after, fuseFlushCommon flush op locks owner granted = some (err, after) ∧
      if (fuseFsLock op wholeFile).1 = ENOSYS then err = fuseFsFlush flush ∧ after = locks
      else err = (if fuseFsFlush flush = ENOSYS then 0 else fuseFsFlush flush) ∧
        (∀ l ∈ after, l.owner ≠ owner) ∧ ∀ other byte type, other ≠ owner →
          (Held after other byte type ↔ Held locks other byte type) := by
  obtain ⟨after, inserted, gone, others⟩ := insert_releases valid served owner granted
  by_cases missing : (fuseFsLock op wholeFile).1 = ENOSYS
  · refine ⟨fuseFsFlush flush, locks, ?_, ?_⟩
    · rw [fuseFlushCommon, if_neg (not_not.mpr missing)]
    · rw [if_pos missing]
      exact ⟨rfl, rfl⟩
  · refine ⟨if fuseFsFlush flush = ENOSYS then 0 else fuseFsFlush flush, after, ?_, ?_⟩
    · rw [fuseFlushCommon, if_pos missing, leaves, inserted]
      rfl
    · rw [if_neg missing]
      exact ⟨rfl, gone, others⟩

/-- The ranges of an owner tell nothing about the order in which they were locked: whatever
has led to the same locked bytes has led to the same ranges. -/
theorem ranges_forget_history {others : List (Lock × Bool)} {results' : List Int}
    {locks' : List Lock} (valid : ∀ request ∈ requests, request.1.Valid)
    (valid' : ∀ request ∈ others, request.1.Valid)
    (served : insertAll [] requests = some (results, locks))
    (served' : insertAll [] others = some (results', locks')) (owner : Nat)
    (same : LockMap.free.assignAll requests results owner =
      LockMap.free.assignAll others results' owner) :
    rangesOf locks owner = rangesOf locks' owner := by
  obtain ⟨tidy, means⟩ := means_of_served valid served
  obtain ⟨tidy', means'⟩ := means_of_served valid' served'
  refine ranges_unique (tidy.filter _) (tidy'.filter _)
    (fun l member => of_decide_eq_true (List.mem_filter.mp member).2)
    (fun l member => of_decide_eq_true (List.mem_filter.mp member).2) fun byte type => ?_
  rw [held_filter_iff, held_filter_iff, ← means, ← means', same]

end Requests

/-! ## A range that is split -/

/-- One owner locks ten bytes for writing and then reads three of them. -/
def splitRequests : List (Lock × Bool) :=
  [(⟨.wrlck, 0, 9, 7, 1⟩, true), (⟨.rdlck, 3, 5, 7, 1⟩, true)]

def splitLocks : List Lock :=
  [⟨.wrlck, 0, 2, 7, 1⟩, ⟨.rdlck, 3, 5, 7, 1⟩, ⟨.wrlck, 6, 9, 7, 1⟩]

theorem valid_splitRequests : ∀ request ∈ splitRequests, request.1.Valid := by
  intro request member
  rcases List.mem_pair.mp member with rfl | rfl <;> exact ⟨by decide, by decide, by decide⟩

theorem served_splitRequests : insertAll [] splitRequests = some ([0, 0], splitLocks) := by
  simp [insertAll, splitRequests, locksInsert, locksLoop, insertHere, splitLocks]

theorem locks_refine_split : ∃ results locks, insertAll [] splitRequests = some (results, locks) ∧
    Tidy locks ∧ Means locks (LockMap.free.assignAll splitRequests results) :=
  (locks_refine valid_splitRequests).imp fun _ => Exists.imp fun _ =>
    And.imp_right (And.imp_right And.left)

theorem conflict_exact_split : locksConflict splitLocks ⟨.wrlck, 4, 4, 8, 2⟩ ≠ none := by
  intro none
  have quiet := (conflict_exact valid_splitRequests served_splitRequests (by decide)).2.mp none
    1 4 .rdlck (by decide) (by decide) (by decide) (by decide)
  exact quiet.2 rfl

/-- The filesystem has a lock operation and nothing to flush, and there is no memory. -/
theorem flush_releases_split : ∃ after,
    fuseFlushCommon none (some fun lock => (0, lock)) splitLocks 1 false = some (0, after) ∧
      ¬ Held after 1 4 .rdlck := by
  obtain ⟨err, after, closed, rfl, gone, _⟩ := flush_releases valid_splitRequests
    served_splitRequests none (show (fuseFsLock (some fun lock => (0, lock)) _).2 = _ from rfl) 1 false
  refine ⟨after, closed, ?_⟩
  rintro ⟨l, member, own, _⟩
  exact gone l member own

/-- The same bytes, locked piece by piece from the back. -/
def pieceRequests : List (Lock × Bool) :=
  [(⟨.wrlck, 6, 9, 8, 1⟩, true), (⟨.rdlck, 3, 5, 8, 1⟩, true), (⟨.wrlck, 0, 2, 8, 1⟩, true)]

def pieceLocks : List Lock :=
  [⟨.wrlck, 0, 2, 8, 1⟩, ⟨.rdlck, 3, 5, 8, 1⟩, ⟨.wrlck, 6, 9, 8, 1⟩]

theorem ranges_forget_history_split : rangesOf splitLocks 1 = rangesOf pieceLocks 1 := by
  have valid : ∀ request ∈ pieceRequests, request.1.Valid := by
    intro request member
    simp only [pieceRequests, List.mem_cons, List.not_mem_nil, or_false] at member
    rcases member with rfl | rfl | rfl <;> exact ⟨by decide, by decide, by decide⟩
  have served : insertAll [] pieceRequests = some ([0, 0, 0], pieceLocks) := by
    simp [insertAll, pieceRequests, locksInsert, locksLoop, insertHere, pieceLocks]
  refine ranges_forget_history valid_splitRequests valid served_splitRequests served 1 ?_
  funext byte
  simp only [splitRequests, pieceRequests, LockMap.assignAll, ↓reduceIte]
  grind [LockMap.assign, LockMap.free]

end Libfuse

end NosqlFS
