import NosqlFS.Libfuse.PathBuffer
import NosqlFS.Libfuse.Lookups

/-!
# From a node up to the root

A walk from a node follows the parents until a node has none.  Taking the locks of a walk
and giving them back changes nothing but the locks of the nodes on the way, and an attempt
that fails gives back what it took.
-/

namespace NosqlFS

namespace Libfuse

open LinearHash LinearHash.Table Text

/-! ## Locks of many nodes -/

/-- The state with other locks. -/
def relock (f : Fuse) (change : Nat → Int → Int) : Fuse :=
  { f with nodes := fun b => (f.nodes b).map fun node =>
      { node with treelock := change b node.treelock } }

/-- The locks of some nodes count a reader more. -/
def addReader (locked : List Nat) : Nat → Int → Int := fun b treelock =>
  if b ∈ locked then treelock + 1 else treelock

/-- The locks of some nodes count a reader less. -/
def dropReader (locked : List Nat) : Nat → Int → Int := fun b treelock =>
  if b ∈ locked then Fuse.releasedLock treelock else treelock

section Relock

variable {f : Fuse} {change change' : Nat → Int → Int} {a : Nat} {node : Node}

theorem relock_relock : relock (relock f change) change' =
    relock f fun b treelock => change' b (change b treelock) := by
  unfold relock
  simp only [Option.map_map]
  rfl

theorem relock_congr (same : ∀ b node, f.nodes b = some node →
    change b node.treelock = change' b node.treelock) : relock f change = relock f change' := by
  unfold relock
  congr 1
  funext b
  cases has : f.nodes b with
  | none => rfl
  | some node => rw [Option.map_some, Option.map_some, same b node has]

theorem relock_id (same : ∀ b node, f.nodes b = some node → change b node.treelock = node.treelock) :
    relock f change = f := by
  rw [show relock f change = relock f fun _ treelock => treelock from relock_congr same]
  unfold relock
  simp only [Option.map_id_fun', id]

theorem setTreelock_eq_relock (f : Fuse) (a : Nat) (treelock : Int) : f.setTreelock a treelock =
    relock f fun b before => if b = a then treelock else before := by
  unfold Fuse.setTreelock Fuse.modify relock
  congr 1
  funext b
  by_cases here : b = a
  · subst here
    rw [Function.update_self]
    simp only [if_true]
  · rw [Function.update_of_ne here]
    simp only [here, if_false, Option.map_id_fun', id]

theorem sameNames_relock : Fuse.SameNames f (relock f change) := by
  refine ⟨fun b => ?_, fun b => ?_, fun b => ?_⟩
  · rw [Fuse.nodeidOf, Fuse.nodeidOf, relock, Option.map_map]
    rfl
  · rw [Fuse.parentOf, Fuse.parentOf, relock, Option.bind_map]
    rfl
  · rw [Fuse.nameOf, Fuse.nameOf, relock, Option.bind_map]
    rfl

theorem nodes_relock (has : f.nodes a = some node) : (relock f change).nodes a =
    some { node with treelock := change a node.treelock } := by
  change (f.nodes a).map _ = _
  rw [has]
  rfl

end Relock

/-! ## Walks -/

/-- The nodes on the way from a node up to another one, with their names. -/
inductive Climb (f : Fuse) : Nat → List (Nat × Bytes) → Nat → Prop where
  | here (a : Nat) : Climb f a [] a
  | up {a parent last nodeid : Nat} {name : Bytes} {links : List (Nat × Bytes)} :
      f.nodeidOf a = some nodeid → nodeid ≠ fuseRootId → f.nameOf a = some name →
      f.parentOf a = some parent → Climb f parent links last → Climb f a ((a, name) :: links) last

/-- The nodes of a walk. -/
def nodesOf (links : List (Nat × Bytes)) : List Nat := links.map Prod.fst

/-- The text that the names of a walk are written in front of. -/
def climbText (links : List (Nat × Bytes)) (text : Bytes) : Bytes :=
  links.foldl (fun text link => ascii "/" ++ link.2 ++ text) text

/-- A walk goes no further from here. -/
def Stops (f : Fuse) (a : Nat) : Prop :=
  f.nodeidOf a = some fuseRootId ∨ f.nodeidOf a ≠ none ∧ (f.nameOf a = none ∨ f.parentOf a = none)

section Climbs

variable {f f' : Fuse} {a b last : Nat} {links links' : List (Nat × Bytes)} {holds : Nat → Nat}

theorem Climb.congr (climb : Climb f a links last) (same : Fuse.SameNames f f') :
    Climb f' a links last := by
  induction climb with
  | here a => exact .here a
  | up numbered apart called above _ ih =>
      exact .up (by rw [same.nodeid, numbered]) apart (by rw [same.name, called])
        (by rw [same.parent, above]) ih

/-- Every other node of a walk is above its first. -/
theorem Climb.below_of_mem (climb : Climb f a links last) (member : b ∈ nodesOf links) :
    b = a ∨ f.Below a b := by
  induction climb with
  | here a => cases member
  | @up a parent _ _ _ links _ _ _ above _ ih =>
      rcases List.mem_cons.mp member with here | later
      · exact .inl here
      · rcases ih later with rfl | below
        · exact .inr (.single above)
        · exact .inr (.head above below)

theorem Climb.nodup (climb : Climb f a links last) (tree : Tree f) : (nodesOf links).Nodup := by
  induction climb with
  | here a => exact List.nodup_nil
  | @up a parent _ _ _ links _ _ _ above rest ih =>
      refine List.nodup_cons.mpr ⟨fun again => ?_, ih⟩
      rcases rest.below_of_mem again with rfl | below
      · exact tree.not_below_self (.single above)
      · exact tree.not_below_self (.head above below)

theorem Climb.isNamed (climb : Climb f a links last) (steady : Steady holds f)
    (member : b ∈ nodesOf links) : f.IsNamed b := by
  induction climb with
  | here a => cases member
  | up _ _ _ above _ ih =>
      rcases List.mem_cons.mp member with rfl | later
      · exact isNamed_of_parentOf steady above
      · exact ih later

/-- A walk passes no more nodes than are named. -/
theorem Climb.length_le (climb : Climb f a links last) (steady : Steady holds f) :
    links.length ≤ f.nameTable.use := by
  have among : (nodesOf links : Multiset Nat) ≤ f.nameTable.content :=
    (Multiset.le_iff_subset (Multiset.coe_nodup.mpr (climb.nodup steady.sound.tree))).mpr
      fun b member => climb.isNamed steady (Multiset.mem_coe.mp member)
  have counted := Multiset.card_le_card among
  rw [Multiset.coe_card, nodesOf, List.length_map] at counted
  exact counted.trans steady.sound.settled.uses

/-- From every node there is a walk that goes no further. -/
theorem exists_climb (steady : Steady holds f) (inMemory : f.nodeidOf a ≠ none) :
    ∃ links last, Climb f a links last ∧ Stops f last := by
  obtain ⟨rank, lower⟩ := steady.sound.tree.acyclic
  induction ranked : rank a using Nat.strongRecOn generalizing a with
  | ind r ih =>
      obtain ⟨nodeid, numbered⟩ := Option.ne_none_iff_exists'.mp inMemory
      by_cases root : nodeid = fuseRootId
      · exact ⟨[], a, .here a, .inl (by rw [numbered, root])⟩
      · cases called : f.nameOf a with
        | none => exact ⟨[], a, .here a, .inr ⟨inMemory, .inl called⟩⟩
        | some name =>
            cases above : f.parentOf a with
            | none => exact ⟨[], a, .here a, .inr ⟨inMemory, .inr above⟩⟩
            | some parent =>
                obtain ⟨_, up, on, known⟩ :=
                  steady.sound.tree.named a (isNamed_of_parentOf steady above)
                obtain rfl := Option.some.inj (above.symm.trans on)
                obtain ⟨links, last, climb, stops⟩ := ih (rank parent)
                  (ranked ▸ lower a parent above) (Option.isSome_iff_ne_none.mp known) rfl
                exact ⟨(a, name) :: links, last, .up numbered root called above climb, stops⟩

end Climbs

/-! ## Locking a walk -/

section Lock

variable {f : Fuse} {a last : Nat} {links : List (Nat × Bytes)} {holds : Nat → Nat}
  {grants : Nat → Option Memory} {text : Bytes} {buffer : PathBuffer}

/-- The names of a walk have room in a path. -/
def Fits (links : List (Nat × Bytes)) (text : Bytes) : Prop :=
  (climbText links text).length + 1 ≤ 0xffffffff

instance {links : List (Nat × Bytes)} {text : Bytes} : Decidable (Fits links text) :=
  inferInstanceAs (Decidable (_ ≤ _))

theorem Fits.tail {link : Nat × Bytes} (fits : Fits (link :: links) text) :
    Fits links (ascii "/" ++ link.2 ++ text) := fits

theorem length_le_climbText (links : List (Nat × Bytes)) (text : Bytes) :
    text.length ≤ (climbText links text).length := by
  induction links generalizing text with
  | nil => exact Nat.le_refl _
  | cons link links ih =>
      refine le_trans ?_ (ih (ascii "/" ++ link.2 ++ text))
      rw [List.length_append]
      exact Nat.le_add_left _ _

/-- How the loop of `try_get_path` may end after it has passed some nodes. -/
inductive Ended (grants : Nat → Option Memory) (f : Fuse) (text : Bytes) (last : Nat)
    (links : List (Nat × Bytes)) : Fuse.Walked → Prop where
  | reached {full : PathBuffer} : f.nodeidOf last = some fuseRootId →
      full.Holds (climbText links text) → Ended grants f text last links (.reached full)
  | noMemory {i : Nat} : grants i = none → Ended grants f text last links (.failed ENOMEM last)
  | locked {node : Node} : f.nodes last = some node → node.treelock < 0 →
      Ended grants f text last links (.failed EAGAIN last)
  | detached : f.nodeidOf last ≠ some fuseRootId → (f.nameOf last = none ∨ f.parentOf last = none) →
      Ended grants f text last links (.failed ENOENT last)

theorem Stops.congr {f' : Fuse} (stops : Stops f a) (same : Fuse.SameNames f f') : Stops f' a := by
  rw [Stops, same.nodeid, same.name, same.parent]
  exact stops

theorem Climb.reaches (climb : Climb f a links last) : a = last ∨ f.Below a last := by
  induction climb with
  | here => exact .inl rfl
  | up _ _ _ above _ ih =>
      rcases ih with rfl | below
      · exact .inr (.single above)
      · exact .inr (.head above below)

/-- A node does not come again on the way up from its parent. -/
theorem Climb.ne_of_above (climb : Climb f b links last) (tree : Tree f)
    (above : f.parentOf a = some b) : a ∉ nodesOf links ∧ last ≠ a := by
  have apart : ∀ c, b = c ∨ f.Below b c → c ≠ a := by
    rintro c (rfl | below) rfl
    · exact tree.not_below_self (.single above)
    · exact tree.not_below_self (.head above below)
  refine ⟨fun member => apart a ?_ rfl, apart last climb.reaches⟩
  exact (climb.below_of_mem member).imp_left Eq.symm

theorem Ended.after {link : Nat × Bytes} {walked : Fuse.Walked} {treelock : Int}
    (ended : Ended grants (f.setTreelock link.1 treelock) (ascii "/" ++ link.2 ++ text) last links
      walked)
    (same : Fuse.SameNames f (f.setTreelock link.1 treelock)) (away : last ≠ link.1) :
    Ended grants f text last (link :: links) walked := by
  cases ended with
  | reached root holdsText => exact .reached (by rw [← same.nodeid, root]) holdsText
  | noMemory short => exact .noMemory short
  | locked has negative =>
      exact .locked ((Fuse.nodes_modify_of_ne f away).symm.trans has) negative
  | detached root loose =>
      rw [same.nodeid] at root
      rw [same.name, same.parent] at loose
      exact .detached root loose

/-- Locking one node and then others is locking all of them. -/
theorem relock_cons (has : f.nodes a = some node) {others : List Nat} (distinct : a ∉ others) :
    relock (f.setTreelock a (node.treelock + 1)) (addReader others) =
      relock f (addReader (a :: others)) := by
  rw [setTreelock_eq_relock, relock_relock]
  refine relock_congr fun b node' has' => ?_
  unfold addReader
  by_cases here : b = a
  · subst here
    obtain rfl := Option.some.inj (has.symm.trans has')
    rw [if_pos rfl, if_neg distinct, if_pos List.mem_cons_self]
  · have same : b ∈ a :: others ↔ b ∈ others := by
      rw [List.mem_cons]
      exact ⟨fun either => either.resolve_left here, .inr⟩
    simp only [here, if_false, same]

/-- The loop of `try_get_path` locks the nodes that it passes for reading, and no other. -/
theorem walkWithin_spec (links : List (Nat × Bytes)) : ∀ {f : Fuse} {a last : Nat} {text : Bytes}
    {buffer : PathBuffer} {steps i : Nat}, Tree f → Climb f a links last → Stops f last →
    Fits links text → buffer.Holds text → links.length < steps →
    ∃ passed last walked, Fuse.walkWithin grants true steps i f a buffer =
        some (walked, relock f (addReader (nodesOf passed))) ∧
      Climb f a passed last ∧ Ended grants f text last passed walked ∧
      (∀ b ∈ nodesOf passed, ∀ node, f.nodes b = some node → 0 ≤ node.treelock) := by
  induction links with
  | nil =>
      intro f a last text buffer steps i tree climb stops fits holdsText enough
      obtain ⟨steps, rfl⟩ := Nat.exists_eq_succ_of_ne_zero (Nat.ne_zero_of_lt enough)
      obtain rfl : a = last := by cases climb; rfl
      have unlocked : relock f (addReader (nodesOf [])) = f := relock_id fun _ _ _ => rfl
      obtain ⟨node, has⟩ : ∃ node, f.nodes a = some node := exists_node (by
        rcases stops with root | ⟨known, -⟩
        · rw [root]; rfl
        · exact Option.isSome_iff_ne_none.mpr known)
      have numbered : f.nodeidOf a = some node.nodeid := by rw [Fuse.nodeidOf, has]; rfl
      rw [Fuse.walkWithin, has]
      by_cases root : node.nodeid = fuseRootId
      · refine ⟨[], a, _, ?_, .here a, .reached (by rw [numbered, root]) holdsText, fun b none => ?_⟩
        · rw [unlocked]
          simp only [root, if_true]
        · cases none
      · have notRoot : f.nodeidOf a ≠ some fuseRootId := by
          rw [numbered]
          exact fun same => root (Option.some.inj same)
        have loose := (stops.resolve_left notRoot).2
        refine ⟨[], a, .failed ENOENT a, ?_, .here a, .detached notRoot loose, fun b none => ?_⟩
        · rw [unlocked]
          rw [Fuse.nameOf, Fuse.parentOf, has] at loose
          simp only [root, if_false]
          rcases loose with nameless | orphaned
          · rw [show node.name = none from nameless]
          · rw [show node.parent = none from orphaned]
            cases node.name <;> rfl
        · cases none
  | cons link links ih =>
      intro f a last text buffer steps i tree climb stops fits holdsText enough
      obtain ⟨steps, rfl⟩ := Nat.exists_eq_succ_of_ne_zero (Nat.ne_zero_of_lt enough)
      cases climb with
      | @up _ parent _ nodeid name _ numbered apart called above rest =>
          obtain ⟨node, has, rfl⟩ := Option.map_eq_some_iff.mp numbered
          have nameHere : node.name = some name := by
            rw [Fuse.nameOf, has] at called
            exact called
          have parentHere : node.parent = some parent := by
            rw [Fuse.parentOf, has] at above
            exact above
          have unlocked : relock f (addReader (nodesOf [])) = f := relock_id fun _ _ _ => rfl
          have room : text.length + name.length + 2 ≤ 0xffffffff := by
            have whole := length_le_climbText links (ascii "/" ++ name ++ text)
            have slash : (ascii "/").length = 1 := rfl
            rw [List.length_append, List.length_append, slash] at whole
            have fits : (climbText links (ascii "/" ++ name ++ text)).length + 1 ≤ _ := fits
            omega
          rw [Fuse.walkWithin, has]
          simp only [apart, if_false, nameHere, parentHere]
          rcases @PathBuffer.addName_spec buffer text name (grants i) holdsText room with
            ⟨refused, short⟩ | ⟨longer, added, holdsLonger⟩
          · refine ⟨[], a, .failed ENOMEM a, ?_, .here a, .noMemory refused,
              fun b none => by cases none⟩
            rw [short, unlocked]
          · rw [added]
            by_cases locked : node.treelock < 0
            · refine ⟨[], a, .failed EAGAIN a, ?_, .here a, .locked has locked,
                fun b none => by cases none⟩
              rw [unlocked]
              simp only [locked, if_true]
              rfl
            · have same : Fuse.SameNames f (f.setTreelock a (node.treelock + 1)) :=
                Fuse.sameNames_modify f a (fun _ => rfl) (fun _ => rfl) (fun _ => rfl)
              obtain ⟨passed, final, walked, went, climbed, ended, free⟩ :=
                @ih _ parent last _ longer steps (i + 1) (tree.congr same rfl rfl rfl) (rest.congr same) (stops.congr same)
                  fits holdsLonger (Nat.lt_of_succ_lt_succ enough)
              have onwards := climbed.congr same.symm
              obtain ⟨distinct, away⟩ := onwards.ne_of_above tree above
              refine ⟨(a, name) :: passed, final, walked, ?_, .up numbered apart called above onwards,
                @Ended.after f final passed grants text (a, name) walked _ ended same away, fun b member node' has' => ?_⟩
              · have all : nodesOf ((a, name) :: passed) = a :: nodesOf passed := rfl
                rw [all, ← relock_cons has distinct, ← went]
                simp only [locked, if_false]
                rfl
              · rcases List.mem_cons.mp member with rfl | later
                · obtain rfl := Option.some.inj (has.symm.trans has')
                  exact not_lt.mp locked
                · refine free b later node' ?_
                  rw [← has']
                  exact Fuse.nodes_modify_of_ne f fun here => distinct (here ▸ later)

end Lock

/-! ## Unlocking a walk -/

section Unlock

variable {a last : Nat} {stop : Option Nat} {holds : Nat → Nat}

/-- The assertions of `unlock_path` about a node that is locked for reading. -/
def Readable (treelock : Int) : Prop :=
  ¬ (treelock = 0 ∨ treelock = treelockWaitOffset ∨ treelock = treelockWrite)

theorem relock_drop_cons {f : Fuse} {node : Node} (has : f.nodes a = some node) {others : List Nat}
    (distinct : a ∉ others) :
    relock (f.setTreelock a (Fuse.releasedLock node.treelock)) (dropReader others) =
      relock f (dropReader (a :: others)) := by
  rw [setTreelock_eq_relock, relock_relock]
  refine relock_congr fun b node' has' => ?_
  unfold dropReader
  by_cases here : b = a
  · subst here
    obtain rfl := Option.some.inj (has.symm.trans has')
    rw [if_pos rfl, if_neg distinct, if_pos List.mem_cons_self]
  · have same : b ∈ a :: others ↔ b ∈ others := by
      rw [List.mem_cons]
      exact ⟨fun either => either.resolve_left here, .inr⟩
    simp only [here, if_false, same]

/-- The loop of `unlock_path` unlocks the nodes up to where it stops, and no other. -/
theorem unlockWithin_spec (links : List (Nat × Bytes)) : ∀ {f : Fuse} {a last steps : Nat},
    Tree f → Climb f a links last →
    (stop = some last ∨ stop = none ∧ f.nodeidOf last = some fuseRootId) →
    (∀ b ∈ nodesOf links, ∀ node, f.nodes b = some node → Readable node.treelock) →
    links.length < steps →
    Fuse.unlockWithin stop steps f (some a) = some (relock f (dropReader (nodesOf links))) := by
  induction links with
  | nil =>
      intro f a last steps tree climb stops readable enough
      obtain ⟨steps, rfl⟩ := Nat.exists_eq_succ_of_ne_zero (Nat.ne_zero_of_lt enough)
      obtain rfl : a = last := by cases climb; rfl
      have unlocked : relock f (dropReader (nodesOf [])) = f := relock_id fun _ _ _ => rfl
      rw [unlocked, Fuse.unlockWithin]
      rcases stops with there | ⟨never, root⟩
      · exact if_pos there.symm
      · obtain ⟨node, has, numbered⟩ := Option.map_eq_some_iff.mp root
        have going : some a ≠ stop := never ▸ Option.some_ne_none a
        simp only [going, has, numbered, if_true, if_false]
  | cons link links ih =>
      intro f a last steps tree climb stops readable enough
      obtain ⟨steps, rfl⟩ := Nat.exists_eq_succ_of_ne_zero (Nat.ne_zero_of_lt enough)
      cases climb with
      | @up _ parent _ nodeid name _ numbered apart called above rest =>
          obtain ⟨node, has, rfl⟩ := Option.map_eq_some_iff.mp numbered
          have parentHere : node.parent = some parent := by
            rw [Fuse.parentOf, has] at above
            exact above
          have same : Fuse.SameNames f (f.setTreelock a (Fuse.releasedLock node.treelock)) :=
            Fuse.sameNames_modify f a (fun _ => rfl) (fun _ => rfl) (fun _ => rfl)
          obtain ⟨distinct, away⟩ := rest.ne_of_above tree above
          have going : some a ≠ stop := by
            rcases stops with rfl | ⟨rfl, -⟩
            · exact fun here => away (Option.some.inj here).symm
            · exact Option.some_ne_none a
          have asserted : Readable node.treelock := readable a List.mem_cons_self node has
          have all : nodesOf ((a, name) :: links) = a :: nodesOf links := rfl
          rw [Fuse.unlockWithin, if_neg going]
          simp only [has, apart, if_false]
          rw [if_neg asserted, parentHere, all, ← relock_drop_cons has distinct]
          refine ih (tree.congr same rfl rfl rfl) (rest.congr same) ?_ (fun b member node' has' => ?_)
            (Nat.lt_of_succ_lt_succ enough)
          · exact stops.imp_right (And.imp_right fun root => by rw [same.nodeid, root])
          · refine readable b (List.mem_cons_of_mem _ member) node' ?_
            have other : b ≠ a := fun here => distinct (here ▸ member)
            rw [← has']
            exact (Fuse.nodes_modify_of_ne f other).symm

end Unlock

end Libfuse

end NosqlFS
