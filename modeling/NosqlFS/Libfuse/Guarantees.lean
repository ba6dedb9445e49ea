import NosqlFS.Libfuse.Interleavings

/-!
# What the kernel and the operations can rely on

A path that is locked leads to its node for as long as it is locked, and nobody else moves
what an operation is about to move.  The two tables find exactly the nodes that are in
memory, no node outlives the last reference to it, and a number and its generation stand
for one node only.
-/

namespace NosqlFS

namespace Libfuse

open LinearHash LinearHash.Table Text LockWord

/-! ## Paths -/

/-- The node that is found by looking up one name after the other. -/
def Fuse.resolve (f : Fuse) : Nat → List Bytes → Option Nat
  | nodeid, [] => some nodeid
  | nodeid, name :: rest => do
      let a ← f.lookupNode nodeid name
      let next ← f.nodeidOf a
      f.resolve next rest

/-- The names on a way, from the root down. -/
def wayDown (links : List (Nat × Bytes)) : List Bytes := (links.map Prod.snd).reverse

/-- The text of a path. -/
def joinNames (names : List Bytes) : Bytes :=
  if names = [] then ascii "/" else names.flatMap (ascii "/" ++ ·)

section Paths

variable {f : Fuse} {a nodeid : Nat} {links : List (Nat × Bytes)} {holds : Nat → Nat}

theorem resolve_append (dir : Nat) (names others : List Bytes) :
    f.resolve dir (names ++ others) = (f.resolve dir names).bind (f.resolve · others) := by
  induction names generalizing dir with
  | nil => rfl
  | cons name rest ih =>
      rw [List.cons_append, Fuse.resolve, Fuse.resolve]
      cases f.lookupNode dir name with
      | none => rfl
      | some a =>
          cases numbered : f.nodeidOf a with
          | none => simp only [Option.bind_eq_bind, Option.bind_some, numbered, Option.bind_none]
          | some next =>
              simp only [Option.bind_eq_bind, Option.bind_some, numbered]
              exact ih next

theorem wayDown_cons (link : Nat × Bytes) (links : List (Nat × Bytes)) :
    wayDown (link :: links) = wayDown links ++ [link.2] := by
  rw [wayDown, List.map_cons, List.reverse_cons]
  rfl

theorem climbText_eq (links : List (Nat × Bytes)) (text : Bytes) :
    climbText links text = (wayDown links).flatMap (ascii "/" ++ ·) ++ text := by
  induction links generalizing text with
  | nil => rfl
  | cons link links ih =>
      rw [wayDown_cons, List.flatMap_append, List.flatMap_singleton, List.append_assoc]
      exact ih (ascii "/" ++ link.2 ++ text)

theorem pathOf_eq (links : List (Nat × Bytes)) (name : Option Bytes) :
    pathOf links name = joinNames (wayDown links ++ name.toList) := by
  have slash : ∀ names : List Bytes, names.flatMap (ascii "/" ++ ·) = [] ↔ names = [] := by
    intro names
    cases names with
    | nil => exact ⟨fun _ => rfl, fun _ => rfl⟩
    | cons name rest =>
        refine ⟨fun wrong => ?_, fun wrong => by cases wrong⟩
        rw [List.flatMap_cons] at wrong
        cases wrong
  have text : climbText links (name.elim [] (ascii "/" ++ ·)) =
      (wayDown links ++ name.toList).flatMap (ascii "/" ++ ·) := by
    rw [climbText_eq, List.flatMap_append]
    cases name with
    | none => rfl
    | some name => rw [Option.toList_some, List.flatMap_singleton]; rfl
  rw [pathOf, joinNames, text]
  simp only [slash]

/-- Looking up the names on the way to a node finds the node. -/
theorem Chain.resolve (chain : Chain f a links) (steady : Steady holds f)
    (numbered : f.nodeidOf a = some nodeid) :
    f.resolve fuseRootId (wayDown links) = some nodeid := by
  have tree := steady.sound.tree
  unfold Chain at chain
  generalize top : rootNode = last at chain
  induction chain generalizing nodeid with
  | here a =>
      rw [← top, tree.root.1] at numbered
      exact numbered
  | @up a parent last number name links own apart called above rest ih =>
      have member := isNamed_of_parentOf steady above
      obtain ⟨_, up, onParent⟩ := tree.named a member
      obtain ⟨onUp, known⟩ := onParent
      obtain rfl := Option.some.inj (above.symm.trans onUp)
      obtain ⟨dir, dirNumber⟩ := Option.isSome_iff_exists.mp known
      have found : f.lookupNode dir name = some a :=
        tree.lookupNode_eq_some_iff.mpr ⟨member, parent, above, dirNumber, called⟩
      rw [wayDown_cons, resolve_append, ih dirNumber top, Option.bind_some, Fuse.resolve, found]
      simp only [Option.bind_eq_bind, Option.bind_some, numbered]
      rfl

/-- The names that lead to a node are those on its way up. -/
theorem exists_chain (steady : Steady holds f) (names : List Bytes) {dir d : Nat}
    (chain : Chain f d links) (numbered : f.nodeidOf d = some dir)
    (resolved : f.resolve dir names = some nodeid) :
    ∃ a further, f.nodeidOf a = some nodeid ∧ Chain f a further ∧
      wayDown further = wayDown links ++ names := by
  have tree := steady.sound.tree
  induction names generalizing dir d links with
  | nil =>
      obtain rfl := Option.some.inj resolved
      exact ⟨d, links, numbered, chain, (List.append_nil _).symm⟩
  | cons name rest ih =>
      obtain ⟨a, found, resolved⟩ := Option.bind_eq_some_iff.mp resolved
      obtain ⟨next, number, resolved⟩ := Option.bind_eq_some_iff.mp resolved
      obtain ⟨member, parent, on, onDir, called⟩ := tree.lookupNode_eq_some_iff.mp found
      obtain rfl := tree.idSingle parent d dir onDir numbered
      have apart : next ≠ fuseRootId := by
        rintro rfl
        exact notRoot_of_named steady.sound member (root_of_nodeidOf tree number)
      obtain ⟨b, further, numbered', chain', way⟩ := ih (.up number apart called on chain) number resolved
      refine ⟨b, further, numbered', chain', ?_⟩
      rw [way, wayDown_cons, List.append_assoc]
      rfl

/-- No way leads further up from here. -/
def IsLast (f : Fuse) (a : Nat) : Prop :=
  f.nodeidOf a = some fuseRootId ∨ f.nameOf a = none ∨ f.parentOf a = none

/-- There is only one way up. -/
theorem Climb.unique {others : List (Nat × Bytes)} {last other : Nat} (climb : Climb f a links last)
    (again : Climb f a others other) (stops : IsLast f last) (stops' : IsLast f other) :
    links = others ∧ last = other := by
  have stuck : ∀ {b parent nodeid name}, f.nodeidOf b = some nodeid → nodeid ≠ fuseRootId →
      f.nameOf b = some name → f.parentOf b = some parent → ¬ IsLast f b := by
    intro b parent nodeid name numbered apart called above stops
    rcases stops with root | nameless | orphaned
    · exact apart (Option.some.inj (numbered.symm.trans root))
    · rw [called] at nameless
      cases nameless
    · rw [above] at orphaned
      cases orphaned
  induction climb generalizing others with
  | here =>
      cases again with
      | here => exact ⟨rfl, rfl⟩
      | up numbered apart called above => exact absurd stops (stuck numbered apart called above)
  | up numbered apart called above rest ih =>
      cases again with
      | here => exact absurd stops' (stuck numbered apart called above)
      | up _ _ called' above' rest' =>
          obtain rfl := Option.some.inj (above.symm.trans above')
          obtain rfl := Option.some.inj (called.symm.trans called')
          obtain ⟨rfl, same⟩ := ih rest' stops
          exact ⟨rfl, same⟩

end Paths

namespace Session

variable {s s' : Session} {table : Bool} {h : Holding} {e : Event} {a b nodeid : Nat}

/-! ## Runs that can be checked -/

/-- So many steps lead from one session to another. -/
inductive Steps : Session → Nat → Session → Prop where
  | refl (s : Session) : Steps s 0 s
  | step {s s' s'' : Session} {n : Nat} {e : Event} : Steps s n s' → s'.Allowed e →
      s'.exec e = some s'' → Steps s (n + 1) s''

theorem Steps.reachable {n : Nat} (steps : Steps s n s') (reachable : Reachable table s) :
    Reachable table s' := by
  induction steps with
  | refl => exact reachable
  | step _ allowed result ih => exact .step ih allowed result

section Checks

variable {f : Fuse} {links : List (Nat × Bytes)} {last steps : Nat} {text : Bytes}
  {events others : List Event}

/-- The text has room at every node on the way up. -/
def ClimbFits : Nat → Fuse → Nat → Bytes → Prop
  | 0, _, _, _ => False
  | steps + 1, f, a, text => text.length + 1 ≤ 0xffffffff ∧
      ∀ name ∈ f.nameOf a, ∀ parent ∈ f.parentOf a,
        ClimbFits steps f parent (ascii "/" ++ name ++ text)

instance decidableClimbFits : ∀ steps f a text, Decidable (ClimbFits steps f a text)
  | 0, _, _, _ => instDecidableFalse
  | steps + 1, f, a, _ =>
      have := decidableClimbFits steps
      inferInstanceAs (Decidable (_ ∧ ∀ name ∈ f.nameOf a, ∀ parent ∈ f.parentOf a, _))

theorem fits_of_climbFits (climb : Climb f a links last) (room : ClimbFits steps f a text) :
    Fits links text := by
  induction climb generalizing steps text with
  | here =>
      cases steps with
      | zero => cases room
      | succ steps => exact room.1
  | up _ _ called above _ ih =>
      cases steps with
      | zero => cases room
      | succ steps => exact ih (room.2 _ called _ above)

theorem namesFit_of_climbFits {name : Option Bytes} (tree : Tree f)
    (room : ∀ a ∈ f.getNode nodeid, ClimbFits steps f a (lastName name)) (a : Nat)
    (numbered : f.nodeidOf a = some nodeid) : NamesFit f a name :=
  fun _ _ climb => fits_of_climbFits climb (room a (tree.getNode_eq_some_iff.mpr numbered))

/-- A check that a step is allowed. -/
def Checked (s : Session) : Event → Prop
  | .find dir name _ => s.Knows dir ∧ s.fuse.idTable.use + 3 ≤ 2 ^ 32 ∧
      ∀ n ∈ name, Quiet s.holdings dir n
  | .lock nodeid name writes _ => s.Knows nodeid ∧
      (∀ a ∈ s.fuse.getNode nodeid,
        ClimbFits (s.fuse.nameTable.use + 1) s.fuse a (lastName name)) ∧
      (s.holdings.length : Int) + 2 + treelockWaitOffset < -1 ∧
      (writes = true → name ≠ none ∧ ∀ n ∈ name, Quiet s.holdings nodeid n ∧
        ∀ w ∈ s.fuse.lookupNode nodeid n, ∀ number ∈ s.fuse.nodeidOf w, 0 < s.owed number)
  | e => s.Allowed e

instance : Decidable (s.Checked e) :=
  match e with
  | .find .. => inferInstanceAs (Decidable (_ ∧ _ ∧ ∀ n ∈ _, _))
  | .forget .. => inferInstanceAs (Decidable (_ ∧ _ ∧ _ ∧ _))
  | .hold _ => instDecidableTrue
  | .drop _ => inferInstanceAs (Decidable (_ ∈ _))
  | .lock .. => inferInstanceAs (Decidable (_ ∧ (∀ a ∈ _, _) ∧ _ ∧
      (_ → _ ∧ ∀ n ∈ _, _ ∧ ∀ w ∈ _, ∀ number ∈ _, _)))
  | .unlock _ => inferInstanceAs (Decidable (_ ∈ _))
  | .remove _ => inferInstanceAs (Decidable (_ ∧ _))
  | .rename .. => inferInstanceAs (Decidable (_ ∧ _ ∧ _ ∧ _))
  | .hide .. => inferInstanceAs (Decidable (_ ∧ _ ∧ _))
  | .exchange .. => inferInstanceAs (Decidable (_ ∧ _ ∧ _ ∧ _))

theorem allowed_of_checked (tree : Tree s.fuse) (checked : s.Checked e) : s.Allowed e := by
  cases e with
  | find => exact ⟨checked.1, checked.2.1, fun n same _ => checked.2.2 n same⟩
  | lock nodeid name writes =>
      obtain ⟨known, room, few, free⟩ := checked
      refine ⟨known, namesFit_of_climbFits tree room, few, fun writing => ?_⟩
      obtain ⟨named, quiet⟩ := free writing
      obtain ⟨n, same⟩ := Option.ne_none_iff_exists'.mp named
      exact ⟨n, same, (quiet n same).1, fun w number found => (quiet n same).2 w found number⟩
  | forget => exact checked
  | hold => exact checked
  | drop => exact checked
  | unlock => exact checked
  | remove => exact checked
  | rename => exact checked
  | hide => exact checked
  | exchange => exact checked

/-- The session after a step that succeeds. -/
def next (s : Session) (e : Event) : Session := (s.exec e).getD s

theorem Reachable.exec_next (reachable : Reachable table s) (allowed : s.Allowed e) :
    s.exec e = some (s.next e) := by
  obtain ⟨after, result, -⟩ := reachable.inv.exec allowed
  rw [next, result]
  rfl

def visited (s : Session) (events : List Event) : Session := events.foldl next s

/-- Every step of a run passes the check. -/
def AllChecked : Session → List Event → Prop
  | _, [] => True
  | s, e :: rest => s.Checked e ∧ (s.next e).AllChecked rest

instance decidableAllChecked : ∀ s events, Decidable (AllChecked s events)
  | _, [] => instDecidableTrue
  | s, e :: rest =>
      have := decidableAllChecked (s.next e) rest
      inferInstanceAs (Decidable (_ ∧ _))

theorem allChecked_append : s.AllChecked (events ++ others) ↔
    s.AllChecked events ∧ (s.visited events).AllChecked others := by
  induction events generalizing s with
  | nil => exact (iff_of_eq (true_and _)).symm
  | cons e rest ih => exact (and_congr_right fun _ => ih).trans and_assoc.symm

theorem Steps.visited {n : Nat} (steps : Steps s n s') (reachable : Reachable table s)
    (checked : s'.AllChecked events) : Steps s (n + events.length) (s'.visited events) := by
  induction events generalizing n s' with
  | nil => exact steps
  | cons e rest ih =>
      have here := steps.reachable reachable
      have allowed := allowed_of_checked here.inv.steady.sound.tree checked.1
      rw [List.length_cons, Nat.add_comm rest.length, ← Nat.add_assoc]
      exact ih (.step steps allowed (here.exec_next allowed)) checked.2

end Checks

section Run

/-- All memory is there, and it is filled with zeros. -/
def zeros : Nat → Option Memory := fun _ => some fun _ => 0

def granted : Allocs := ⟨true, true, true⟩

/-- The kernel looks a name up. -/
def look (dir : Nat) (name : String) : Event := .find dir (some (ascii name)) granted

/-- An operation locks the path of a name, and whatever has the name for writing. -/
def lockName (dir : Nat) (name : String) : Event := .lock dir (some (ascii name)) true zeros

def holdingF : Holding := ⟨2, some (ascii "f"), some 2, true, [(1, ascii "d")], ascii "/d/f" ++ [0]⟩

def holdingG : Holding := ⟨2, some (ascii "g"), some 3, true, [(1, ascii "d")], ascii "/d/g" ++ [0]⟩

/-- Two files in a directory are locked, one is removed while a writer waits for the
directory, both are unlocked, and everything is forgotten before the next name is looked up. -/
def run : List Event :=
  [look fuseRootId "d", look 2 "f", look 2 "g", lockName 2 "f", lockName 2 "g",
    .remove holdingG, lockName fuseRootId "d", .unlock holdingG.disarmed, .unlock holdingF,
    .hold 2, .drop 1, .forget 2 1, .forget 3 1, .forget 4 1, look fuseRootId "h"]

/-- The session after so many steps of the run. -/
def after (n : Nat) : Session := (start true).visited (run.take n)

theorem run_checked : (start true).AllChecked run := by
  decide +kernel

/-- What is before a point of the run and what comes after it pass the check. -/
theorem run_splits (n : Nat) :
    (start true).AllChecked (run.take n) ∧ (after n).AllChecked (run.drop n) := by
  rw [after, ← allChecked_append, List.take_append_drop]
  exact run_checked

theorem steps_after (n : Nat) : Steps (start true) (run.take n).length (after n) := by
  have steps := (Steps.refl (start true)).visited .start (run_splits n).1
  rwa [Nat.zero_add] at steps

theorem reachable_after (n : Nat) : Reachable true (after n) := (steps_after n).reachable .start

theorem steps_from_after (n : Nat) :
    Steps (after n) (run.drop n).length ((after n).visited (run.drop n)) := by
  have steps := (Steps.refl (after n)).visited (reachable_after n) (run_splits n).2
  rwa [Nat.zero_add] at steps

theorem allowed_rename : (after 5).Allowed (.rename holdingG holdingF granted) :=
  allowed_of_checked (reachable_after 5).inv.steady.sound.tree (by decide +kernel)

/-- Nothing is owed for a number if nothing is owed for those of the nodes in memory. -/
theorem Reachable.owed_eq_zero (reachable : Reachable table s)
    (none : ∀ a < s.fuse.brk, ∀ nodeid ∈ s.fuse.nodeidOf a, s.owed nodeid = 0) (nodeid : Nat) :
    s.owed nodeid = 0 := by
  by_contra owed
  obtain ⟨a, numbered⟩ := reachable.inv.known nodeid (.inr (Nat.pos_of_ne_zero owed))
  have fresh := reachable.inv.steady.sound.tree.fresh a (by rw [numbered]; rfl)
  exact owed (none a fresh nodeid numbered)

end Run

/-! ## Steps -/

/-- No assertion fails, nothing aborts and no node is used after it has been freed, in
whatever order the threads take their steps. -/
theorem Reachable.succeeds (reachable : Reachable table s) (allowed : s.Allowed e) :
    ∃ s', s.exec e = some s' := by
  obtain ⟨s', result, -⟩ := reachable.inv.exec allowed
  exact ⟨s', result⟩

theorem succeeds_rename : ∃ s', (after 5).exec (.rename holdingG holdingF granted) = some s' :=
  (reachable_after 5).succeeds allowed_rename

/-! ## Locked paths -/

/-- A path leads to its node from when it is locked until it is unlocked, whatever other
operations do in between. -/
theorem Reachable.path_resolves (reachable : Reachable table s) (member : h ∈ s.holdings) :
    ∃ names, s.fuse.resolve fuseRootId names = some h.nodeid ∧
      h.path = joinNames (names ++ h.name.toList) ++ [0] := by
  have held := reachable.inv.held h member
  obtain ⟨a, numbered, chain⟩ := held.chain
  exact ⟨wayDown h.links, chain.resolve reachable.inv.steady numbered,
    by rw [held.path, pathOf_eq]⟩

theorem path_resolves_removed : ∃ names, (after 7).fuse.resolve fuseRootId names = some 2 ∧
    ascii "/d/f" ++ [0] = joinNames (names ++ [ascii "f"]) ++ [0] :=
  (reachable_after 7).path_resolves (show holdingF ∈ (after 7).holdings by decide +kernel)

/-- A node that an operation may move is on no path that is locked, and no other operation
may move it. -/
theorem Reachable.exclusive (reachable : Reachable table s) :
    (∀ h ∈ s.holdings, ∀ other ∈ s.holdings, ∀ w, h.wnode = some w → w ∉ nodesOf other.links) ∧
      s.holdings.Pairwise fun h other => ∀ w, h.wnode = some w → other.wnode ≠ some w := by
  have inv := reachable.inv
  have locked : ∀ w, 0 < writers s.holdings w → ∃ node, s.fuse.nodes w = some node := by
    intro w written
    obtain ⟨h, member, writes⟩ := List.countP_pos_iff.mp written
    obtain ⟨-, node, has, -⟩ := (inv.held h member).written w (of_decide_eq_true writes)
    exact ⟨node, has⟩
  constructor
  · intro h member other member' w writes onWay
    have written := writers_pos member writes
    obtain ⟨node, has⟩ := locked w written
    exact written.ne' (inv.onWay member' onWay has).2
  · rw [List.pairwise_iff_forall_sublist]
    intro h other both w first second
    have twice : 2 ≤ writers s.holdings w := by
      have pair : writers [h, other] w = 2 := by
        rw [writers_cons, writers_cons, if_pos first, if_pos second]
        rfl
      rw [← pair]
      exact both.countP_le
    obtain ⟨node, has⟩ := locked w (by omega)
    have once := (inv.locks w node has).single
    omega

theorem exclusive_locked :
    (∀ h ∈ (after 5).holdings, ∀ other ∈ (after 5).holdings, ∀ w, h.wnode = some w →
      w ∉ nodesOf other.links) ∧
    (after 5).holdings.Pairwise fun h other => ∀ w, h.wnode = some w → other.wnode ≠ some w :=
  (reachable_after 5).exclusive

/-- What an attempt to lock a path comes to: locks that can be given back as they were, or
no lock and the reason, with at most the mark that a writer waits. -/
def Attempted (s : Session) (a nodeid : Nat) (name : Option Bytes)
    (grants : Nat → Option Memory) : Except Int (Bytes × Option Nat) → Fuse → Prop
  | .ok (path, wnode), f => f.unlockPath nodeid wnode none = some s.fuse ∧
      ∃ names, s.fuse.resolve fuseRootId names = some nodeid ∧
        path = joinNames (names ++ name.toList) ++ [0]
  | .error err, f => (err = ENOMEM ∧ (∃ i, grants i = none) ∨ err = ENOENT ∧ Detached s.fuse a ∨
      err = EAGAIN ∧ s.holdings ≠ []) ∧
      (f = s.fuse ∨ ∃ w node, s.fuse.lookupNode nodeid (name.getD []) = some w ∧
        s.fuse.nodes w = some node ∧ 0 < node.treelock ∧
        f = s.fuse.setTreelock w (node.treelock + treelockWaitOffset))

/-- An attempt to lock a path takes all of its locks or none. -/
theorem Reachable.attempt {name : Option Bytes} {writes : Bool} {grants : Nat → Option Memory}
    (reachable : Reachable table s) (numbered : s.fuse.nodeidOf a = some nodeid)
    (fits : NamesFit s.fuse a name) :
    ∃ result f, s.fuse.tryGetPath grants nodeid name writes true = some (result, f) ∧
      s.Attempted a nodeid name grants result f := by
  have inv := reachable.inv
  have busy : ∀ {b node}, s.fuse.nodes b = some node → node.treelock ≠ 0 → s.holdings ≠ [] := by
    intro b node has locked none
    have encodes := inv.locks b node has
    rw [none] at encodes
    rcases encodes with ⟨-, free | ⟨wrong, -⟩⟩ | ⟨wrong, -⟩
    · exact locked free
    · exact lt_irrefl 0 wrong
    · exact Nat.zero_ne_one wrong
  obtain ⟨result, f, went, tried⟩ := @tryGetPath_spec s.fuse a nodeid name writes _ grants inv.steady
    numbered fits
  refine ⟨result, f, went, ?_⟩
  cases tried with
  | locked chain _ unlocked readable =>
      exact ⟨unlockPath_lockedBy inv.steady numbered chain
        (.inr ⟨rfl, inv.steady.sound.tree.root.1⟩) unlocked readable, _,
        chain.resolve inv.steady numbered, by rw [pathOf_eq]⟩
  | refused refusal =>
      refine ⟨?_, .inl rfl⟩
      cases refusal with
      | noMemory short => exact .inl ⟨rfl, _, short⟩
      | busy has locked => exact .inr (.inr ⟨rfl, busy has locked⟩)
      | detached loose => exact .inr (.inl ⟨rfl, loose⟩)
  | waits _ found has read =>
      exact ⟨.inr (.inr ⟨rfl, busy has read.ne'⟩), .inr ⟨_, _, found, has, read, rfl⟩⟩

/-- The file can be locked before it is locked, and the attempt fails afterwards. -/
theorem attempt_locked :
    (∃ f, (after 3).Attempted 1 2 (some (ascii "f")) zeros
      (.ok (ascii "/d/f" ++ [0], some 2)) f) ∧
    ∃ f, (after 5).Attempted 1 2 (some (ascii "f")) zeros (.error EAGAIN) f := by
  have free : (after 3).fuse.nodeidOf 1 = some 2 ∧
      (∀ a ∈ (after 3).fuse.getNode 2, ClimbFits 3 (after 3).fuse a (ascii "/f")) ∧
      ∀ tried ∈ (after 3).fuse.tryGetPath zeros 2 (some (ascii "f")) true true,
        tried.1 = .ok (ascii "/d/f" ++ [0], some 2) := by decide +kernel
  have busy : (after 5).fuse.nodeidOf 1 = some 2 ∧
      (∀ a ∈ (after 5).fuse.getNode 2, ClimbFits 3 (after 5).fuse a (ascii "/f")) ∧
      ∀ tried ∈ (after 5).fuse.tryGetPath zeros 2 (some (ascii "f")) true true,
        tried.1 = .error EAGAIN := by decide +kernel
  obtain ⟨result, f, went, attempted⟩ := @Reachable.attempt (after 3) true 1 2 (some (ascii "f"))
    true zeros (reachable_after 3) free.1
    (namesFit_of_climbFits (reachable_after 3).inv.steady.sound.tree free.2.1 1 free.1)
  obtain ⟨result', f', went', attempted'⟩ := @Reachable.attempt (after 5) true 1 2
    (some (ascii "f")) true zeros (reachable_after 5) busy.1
    (namesFit_of_climbFits (reachable_after 5).inv.steady.sound.tree busy.2.1 1 busy.1)
  exact ⟨⟨f, free.2.2 _ went ▸ attempted⟩, f', busy.2.2 _ went' ▸ attempted'⟩

/-- When no path is locked, every path that leads to a node can be locked. -/
theorem Reachable.lock_free {name : Option Bytes} {writes : Bool} {grants : Nat → Option Memory}
    {names : List Bytes} (reachable : Reachable table s) (free : s.holdings = [])
    (resolved : s.fuse.resolve fuseRootId names = some nodeid)
    (fits : ∀ a, s.fuse.nodeidOf a = some nodeid → NamesFit s.fuse a name)
    (memory : ∀ i, grants i ≠ none) :
    ∃ wnode f, s.fuse.tryGetPath grants nodeid name writes true =
      some (.ok (joinNames (names ++ name.toList) ++ [0], wnode), f) := by
  have inv := reachable.inv
  have tree := inv.steady.sound.tree
  obtain ⟨a, links, numbered, chain, way⟩ :=
    exists_chain inv.steady names (.here rootNode) tree.root.1 resolved
  have unlocked : ∀ {b node}, s.fuse.nodes b = some node → node.treelock = 0 := by
    intro b node has
    have encodes := inv.locks b node has
    rw [free] at encodes
    rcases encodes with ⟨-, zero | ⟨wrong, -⟩⟩ | ⟨wrong, -⟩
    · exact zero
    · exact absurd wrong (lt_irrefl 0)
    · exact absurd wrong Nat.zero_ne_one
  obtain ⟨result, f, went, tried⟩ := @tryGetPath_spec s.fuse a nodeid name writes _ grants inv.steady
    numbered (fits a numbered)
  have stops : IsLast s.fuse rootNode := .inl tree.root.1
  cases tried with
  | @locked wnode others again _ _ _ =>
      obtain ⟨rfl, -⟩ := Climb.unique chain again stops stops
      rw [pathOf_eq, way] at went
      exact ⟨wnode, _, went⟩
  | refused refusal =>
      cases refusal with
      | noMemory short => exact absurd short (memory _)
      | busy has locked => exact absurd (unlocked has) locked
      | detached loose =>
          obtain ⟨others, last, again, notRoot, loose⟩ := loose
          obtain ⟨-, rfl⟩ := Climb.unique chain again stops (.inr loose)
          exact absurd tree.root.1 notRoot
  | waits _ _ has read => exact absurd (unlocked has) read.ne'

theorem lock_free_unlocked : ∃ wnode f,
    (after 9).fuse.tryGetPath zeros 2 (some (ascii "f")) true true =
      some (.ok (ascii "/d/f" ++ [0], wnode), f) := by
  have free : (after 9).holdings = [] ∧
      (after 9).fuse.resolve fuseRootId [ascii "d"] = some 2 ∧
      ∀ a ∈ (after 9).fuse.getNode 2, ClimbFits 3 (after 9).fuse a (ascii "/f") := by decide +kernel
  exact (reachable_after 9).lock_free free.1 free.2.1
    (namesFit_of_climbFits (reachable_after 9).inv.steady.sound.tree free.2.2)
    fun _ => Option.some_ne_none _

/-! ## The tree -/

/-- Every step changes the map from directories and names to nodes as it should. -/
theorem Reachable.effect (reachable : Reachable table s) (allowed : s.Allowed e)
    (result : s.exec e = some s') : Effect s s' e := by
  obtain ⟨after, again, stepped⟩ := reachable.inv.exec allowed
  rw [result] at again
  rw [Option.some.inj again]
  exact stepped.effect

theorem effect_rename : Effect (after 5) ((after 5).next (.rename holdingG holdingF granted))
    (.rename holdingG holdingF granted) :=
  (reachable_after 5).effect allowed_rename ((reachable_after 5).exec_next allowed_rename)

/-- However the two tables have been grown and shrunk, they find a node exactly if it is in
memory. -/
theorem Reachable.lookups (reachable : Reachable table s) :
    (∀ dir name a, s.fuse.lookupNode dir name = some a ↔ ∃ node parent above,
      s.fuse.nodes a = some node ∧ node.parent = some parent ∧ node.name = some name ∧
      s.fuse.nodes parent = some above ∧ above.nodeid = dir) ∧
    ∀ nodeid a, s.fuse.getNode nodeid = some a ↔ ∃ node,
      s.fuse.nodes a = some node ∧ node.nodeid = nodeid := by
  have steady := reachable.inv.steady
  have tree := steady.sound.tree
  refine ⟨fun dir name a => tree.lookupNode_eq_some_iff.trans ⟨?_, ?_⟩, fun nodeid a =>
    tree.getNode_eq_some_iff.trans Option.map_eq_some_iff⟩
  · rintro ⟨-, parent, above, numbered, called⟩
    obtain ⟨node, has, on⟩ := Option.bind_eq_some_iff.mp above
    obtain ⟨upper, hasUpper, number⟩ := Option.map_eq_some_iff.mp numbered
    rw [Fuse.nameOf, has] at called
    exact ⟨node, parent, upper, has, on, called, hasUpper, number⟩
  · rintro ⟨node, parent, upper, has, on, called, hasUpper, number⟩
    have above : s.fuse.parentOf a = some parent := by rw [parentOf_eq has, on]
    refine ⟨isNamed_of_parentOf steady above, parent, above, ?_, ?_⟩
    · rw [Fuse.nodeidOf, hasUpper, Option.map_some, number]
    · rw [Fuse.nameOf, has]
      exact called

theorem lookups_removed :
    (∀ dir name a, (after 7).fuse.lookupNode dir name = some a ↔ ∃ node parent above,
      (after 7).fuse.nodes a = some node ∧ node.parent = some parent ∧ node.name = some name ∧
      (after 7).fuse.nodes parent = some above ∧ above.nodeid = dir) ∧
    ∀ nodeid a, (after 7).fuse.getNode nodeid = some a ↔ ∃ node,
      (after 7).fuse.nodes a = some node ∧ node.nodeid = nodeid :=
  (reachable_after 7).lookups

/-- Whatever is in a bucket of one of the two tables is in memory, and so is its parent. -/
theorem Reachable.buckets (reachable : Reachable table s) :
    (∀ a ∈ s.fuse.idTable.content, ∃ node, s.fuse.nodes a = some node) ∧
    ∀ a ∈ s.fuse.nameTable.content, ∃ node parent above, s.fuse.nodes a = some node ∧
      node.parent = some parent ∧ node.name ≠ none ∧ s.fuse.nodes parent = some above := by
  have tree := reachable.inv.steady.sound.tree
  constructor
  · intro a member
    obtain ⟨nodeid, numbered⟩ := Option.isSome_iff_exists.mp ((tree.idContent a).mp member)
    obtain ⟨node, has, -⟩ := Option.map_eq_some_iff.mp numbered
    exact ⟨node, has⟩
  · intro a member
    obtain ⟨called, parent, above, known⟩ := tree.named a member
    obtain ⟨node, has, on⟩ := Option.bind_eq_some_iff.mp above
    obtain ⟨nodeid, numbered⟩ := Option.isSome_iff_exists.mp known
    obtain ⟨upper, hasUpper, -⟩ := Option.map_eq_some_iff.mp numbered
    rw [Fuse.nameOf, has] at called
    exact ⟨node, parent, upper, has, on, Option.isSome_iff_ne_none.mp called, hasUpper⟩

/-- The references to a node are the lookup of the kernel, the nodes below it and those
that are held for a while, and there is at least one of them. -/
theorem Reachable.references (reachable : Reachable table s) {node : Node}
    (has : s.fuse.nodes a = some node) :
    node.refctr = (if a = rootNode ∨ 0 < s.owed node.nodeid then 1 else 0) + s.fuse.children a +
      s.dots.count a ∧ node.refctr ≠ 0 := by
  have inv := reachable.inv
  refine ⟨?_, inv.steady.alive a node has⟩
  rw [inv.steady.sound.counts.refs a node has]
  have same : node.nlookup = 0 ↔ ¬ (a = rootNode ∨ 0 < s.owed node.nodeid) := by
    by_cases root : a = rootNode
    · have known := inv.steady.sound.counts.rootKnown node (root ▸ has)
      exact ⟨fun none => absurd none known.ne', fun wrong => absurd (.inl root) wrong⟩
    · rw [inv.owed a node has root]
      simp only [root, false_or, Nat.pos_iff_ne_zero, ne_eq, not_not]
  simp only [same, ite_not]

/-- The directory with one lookup, one name below it and one reference. -/
def nodeD : Node := ⟨2, 0, 3, some 0, some (ascii "d"), 1, 0, false, 0⟩

theorem references_held : nodeD.refctr = (if 1 = rootNode ∨ 0 < (after 10).owed nodeD.nodeid then 1
      else 0) + (after 10).fuse.children 1 + (after 10).dots.count 1 ∧ nodeD.refctr ≠ 0 :=
  (reachable_after 10).references (show (after 10).fuse.nodes 1 = some nodeD by decide +kernel)

/-- When the kernel has forgotten all that it has looked up and nothing is held, only the
root is left. -/
theorem Reachable.nothing_left (reachable : Reachable table s)
    (forgotten : ∀ nodeid, s.owed nodeid = 0) (dropped : s.dots = []) :
    {a | (s.fuse.nodes a).isSome = true} = {rootNode} := by
  have steady := reachable.inv.steady
  refine Set.eq_singleton_iff_unique_mem.mpr ⟨?_, fun a inMemory => ?_⟩
  · obtain ⟨node, has, -⟩ := Option.map_eq_some_iff.mp steady.sound.tree.root.1
    exact Option.isSome_iff_exists.mpr ⟨node, has⟩
  obtain ⟨node, has⟩ := Option.isSome_iff_exists.mp inMemory
  refine @Steady.induction_below s.fuse _ (fun a => ∀ node, s.fuse.nodes a = some node →
    a = rootNode) steady (fun a below node has => ?_) a node has
  by_contra apart
  obtain ⟨counted, alive⟩ := reachable.references has
  rw [if_neg (by rw [forgotten]; exact not_or.mpr ⟨apart, lt_irrefl 0⟩), dropped] at counted
  obtain ⟨b, member, above⟩ := Multiset.countP_pos.mp
    (show 0 < s.fuse.nameTable.content.countP fun b => s.fuse.parentOf b = some a by
      change 0 < s.fuse.children a
      rw [List.count_nil] at counted
      omega)
  obtain ⟨child, _, _, hasChild, -⟩ := steady.sound.tree.exists_parent member
  exact notRoot_of_named steady.sound member (below b member above child hasChild)

theorem nothing_left_forgotten : {a | ((after 14).fuse.nodes a).isSome = true} = {rootNode} :=
  (reachable_after 14).nothing_left ((reachable_after 14).owed_eq_zero (by decide +kernel))
    (by decide +kernel)

/-! ## Numbers -/

/-- As long as there are numbers that no node in memory has, the next number is one of
them, however the numbers have come around. -/
theorem Reachable.next_number (reachable : Reachable table s)
    (room : s.fuse.idTable.use + 3 ≤ 2 ^ 32) :
    ∃ nodeid generation, s.fuse.nextId =
        some (nodeid, { s.fuse with ctr := nodeid, generation := generation }) ∧
      0 < nodeid ∧ nodeid < fuseUnknownIno ∧
      ∀ a node, s.fuse.nodes a = some node → node.nodeid ≠ nodeid := by
  obtain ⟨nodeid, generation, _, next, positive, known, unused, -⟩ :=
    Fuse.nextId_spec reachable.inv.steady.sound.tree reachable.inv.counting room
  refine ⟨nodeid, generation, next, positive, known, fun a node has same => unused a ?_⟩
  rw [Fuse.nodeidOf, has, ← same]
  rfl

theorem next_number_removed : ∃ nodeid generation, (after 7).fuse.nextId =
      some (nodeid, { (after 7).fuse with ctr := nodeid, generation := generation }) ∧
    0 < nodeid ∧ nodeid < fuseUnknownIno ∧
    ∀ a node, (after 7).fuse.nodes a = some node → node.nodeid ≠ nodeid :=
  (reachable_after 7).next_number (by decide +kernel)

/-- As long as the stamps have not come around, they only grow, and a new node has a stamp
that is later than all those before. -/
theorem Steps.stamps {n bound : Nat} (steps : Steps s n s') (reachable : Reachable table s)
    (small : s.fuse.stamp ≤ bound * 2 ^ 32) (few : bound + n < 2 ^ 32) :
    s.fuse.stamp ≤ s'.fuse.stamp ∧ s'.fuse.stamp ≤ (bound + n) * 2 ^ 32 ∧
      ∀ b node', s'.fuse.nodes b = some node' → (∃ node, s.fuse.nodes b = some node ∧
        node'.nodeid = node.nodeid ∧ node'.generation = node.generation) ∨
        s.fuse.stamp < node'.stamp ∧ node'.stamp ≤ s'.fuse.stamp := by
  induction steps with
  | refl => exact ⟨le_rfl, small, fun b node has => .inl ⟨node, has, rfl, rfl⟩⟩
  | @step middle s'' n e first allowed result ih =>
      obtain ⟨grows, bounded, nodes⟩ := ih (by omega)
      obtain ⟨after, again, stepped⟩ := (first.reachable reachable).inv.exec allowed
      obtain rfl := Option.some.inj (result.symm.trans again)
      obtain ⟨skipped, few', stamp, fields⟩ := stepped.later
      have straight : s''.fuse.stamp = middle.fuse.stamp + skipped := by
        rw [stamp, Nat.mod_eq_of_lt]
        omega
      refine ⟨by omega, by omega, fun b node'' has'' => ?_⟩
      rcases fields b node'' has'' with ⟨node', has', nodeid', generation'⟩ | ⟨later, new⟩
      · have same : node''.stamp = node'.stamp := by
          rw [Node.stamp, Node.stamp, nodeid', generation']
        rcases nodes b node' has' with ⟨node, has, nodeid, generation⟩ | ⟨after, most⟩
        · exact .inl ⟨node, has, nodeid'.trans nodeid, generation'.trans generation⟩
        · exact .inr ⟨by omega, by omega⟩
      · exact .inr ⟨by omega, by omega⟩

theorem stamp_start : (start table).fuse.stamp = 0 := by
  simp only [start, Fuse.start, Fuse.stamp, Fuse.hashId, Fuse.incNlookup, Fuse.modify,
    Nat.zero_mul]

/-- A number and its generation stand for one node only, in the first four billion steps. -/
theorem Steps.handle_unique {m n : Nat} {node : Node} (first : Steps (start table) m s)
    (next : Steps s n s') (few : m + n < 2 ^ 32) (has : s.fuse.nodes a = some node) :
    {b | ∃ node', s'.fuse.nodes b = some node' ∧ node'.nodeid = node.nodeid ∧
      node'.generation = node.generation} ⊆ {a} := by
  rintro b ⟨node', has', same⟩
  refine Set.mem_singleton_iff.mpr ?_
  have reachable : Reachable table s := first.reachable .start
  have zero : (start table).fuse.stamp ≤ 0 * 2 ^ 32 := Nat.le_of_eq stamp_start
  obtain ⟨-, bounded, early⟩ := first.stamps .start zero (by omega)
  rw [Nat.zero_add] at bounded
  obtain ⟨-, -, late⟩ := next.stamps reachable bounded few
  have single : ∀ number, s.fuse.nodeidOf a = some number → s.fuse.nodeidOf b = some number → b = a :=
    fun number here there => reachable.inv.steady.sound.tree.idSingle b a number there here
  have stamp : node'.stamp = node.stamp := by rw [Node.stamp, Node.stamp, same.1, same.2]
  rcases late b node' has' with ⟨before, had, nodeid, -⟩ | ⟨later, -⟩
  · exact single node.nodeid (by rw [Fuse.nodeidOf, has]; rfl)
      (by rw [Fuse.nodeidOf, had, Option.map_some, ← nodeid, same.1])
  · rcases early a node has with ⟨top, hasTop, nodeid, generation⟩ | ⟨-, most⟩
    · rw [show (start table).fuse = Fuse.start table from rfl, nodes_start] at hasTop
      split at hasTop
      · rename_i here
        have root : s'.fuse.nodeidOf b = some fuseRootId := by
          rw [Fuse.nodeidOf, has', Option.map_some, same.1, nodeid, ← Option.some.inj hasTop]
          rfl
        rw [here, root_of_nodeidOf (next.reachable reachable).inv.steady.sound.tree root]
      · cases hasTop
    · omega

theorem handle_unique_forgotten :
    {b | ∃ node, ((after 3).visited (run.drop 3)).fuse.nodes b = some node ∧
      node.nodeid = 3 ∧ node.generation = 0} ⊆ {2} := by
  have has : (after 3).fuse.nodes 2 =
      some ⟨3, 0, 1, some 1, some (ascii "f"), 1, 0, false, 0⟩ := by decide +kernel
  exact (steps_after 3).handle_unique (steps_from_after 3) (by decide) has

end Session

end Libfuse

end NosqlFS
