import NosqlFS.Libfuse.Walks

/-!
# Locking and unlocking a path

An attempt to lock a path either takes all the locks, or it leaves every lock as it was,
but for the mark that a writer waits.  Unlocking gives back what was taken.
-/

namespace NosqlFS

namespace Libfuse

open LinearHash LinearHash.Table Text

/-- The locks after a path has been locked. -/
def lockedBy (wnode : Option Nat) (passed : List Nat) : Nat → Int → Int := fun b treelock =>
  if wnode = some b then treelockWrite else addReader passed b treelock

/-- The locks after a path has been unlocked. -/
def unlockedBy (wnode : Option Nat) (passed : List Nat) : Nat → Int → Int := fun b treelock =>
  if wnode = some b then 0 else dropReader passed b treelock

/-- The way from a node up to the root. -/
def Chain (f : Fuse) (a : Nat) (links : List (Nat × Bytes)) : Prop := Climb f a links rootNode

/-- The way ends at a node without a name. -/
def Detached (f : Fuse) (a : Nat) : Prop :=
  ∃ links last, Climb f a links last ∧ f.nodeidOf last ≠ some fuseRootId ∧
    (f.nameOf last = none ∨ f.parentOf last = none)

/-- The path of a node, with the names on the way from the root. -/
def pathOf (links : List (Nat × Bytes)) (name : Option Bytes) : Bytes :=
  let text := climbText links (name.elim [] (ascii "/" ++ ·))
  if text = [] then ascii "/" else text

section Unlocking

variable {f : Fuse} {a last nodeid : Nat} {wnode stop : Option Nat} {links : List (Nat × Bytes)}
  {holds : Nat → Nat}

theorem steps_enough (climb : Climb f a links last) (steady : Steady holds f) :
    links.length < f.nameTable.use + 2 :=
  Nat.lt_succ_of_le (Nat.le_succ_of_le (climb.length_le steady))

theorem root_of_nodeidOf (tree : Tree f) (numbered : f.nodeidOf a = some fuseRootId) :
    a = rootNode := tree.idSingle a rootNode fuseRootId numbered tree.root.1

/-- Unlocking a path that is locked succeeds and gives its locks back. -/
theorem unlockPath_spec {g : Fuse} (steady : Steady holds f) (same : Fuse.SameNames f g)
    (names : g.nameTable = f.nameTable) (ids : g.idTable = f.idTable) (brk : g.brk = f.brk)
    (numbered : f.nodeidOf a = some nodeid) (climb : Climb f a links last)
    (stops : stop = some last ∨ stop = none ∧ f.nodeidOf last = some fuseRootId)
    (written : ∀ w, wnode = some w → ∃ node, g.nodes w = some node ∧ node.treelock = treelockWrite)
    (readable : ∀ b ∈ nodesOf links, ∀ node, g.nodes b = some node → Readable node.treelock) :
    g.unlockPath nodeid wnode stop = some (relock g (unlockedBy wnode (nodesOf links))) := by
  have treeg : Tree g := steady.sound.tree.congr same ids names brk
  obtain ⟨released, freed, relocked⟩ : ∃ released, g.unlockWritten wnode = some released ∧
      released = relock g fun b treelock => if wnode = some b then 0 else treelock := by
    cases wnode with
    | none => exact ⟨g, rfl, (relock_id fun _ _ _ => rfl).symm⟩
    | some w =>
        obtain ⟨node, has, lock⟩ := written w rfl
        refine ⟨g.setTreelock w 0, ?_, ?_⟩
        · rw [Fuse.unlockWritten, has]
          exact if_pos lock
        · rw [setTreelock_eq_relock]
          congr 1
          funext b treelock
          simp only [Option.some.injEq, eq_comm]
  have apart : ∀ b ∈ nodesOf links, wnode ≠ some b := by
    rintro b member rfl
    obtain ⟨node, has, lock⟩ := written b rfl
    exact readable b member node has (.inr (.inr lock))
  have sameReleased : Fuse.SameNames g released := relocked ▸ sameNames_relock
  have treeReleased : Tree released := treeg.congr sameReleased (by rw [relocked]; rfl)
    (by rw [relocked]; rfl) (by rw [relocked]; rfl)
  have found : released.getNode nodeid = some a := treeReleased.getNode_eq_some_iff.mpr (by
    rw [sameReleased.nodeid, same.nodeid, numbered])
  have went := @unlockWithin_spec stop links released a last (released.nameTable.use + 2)
    treeReleased ((climb.congr same).congr sameReleased)
    (stops.imp_right fun ⟨never, root⟩ => ⟨never, by rw [sameReleased.nodeid, same.nodeid, root]⟩)
    (fun b member node has => by
      rw [relocked] at has
      obtain ⟨before, had, rfl⟩ := Option.map_eq_some_iff.mp has
      simp only [apart b member, if_false]
      exact readable b member before had)
    (by
      have same_use : released.nameTable.use = f.nameTable.use := by rw [relocked, ← names]; rfl
      rw [same_use]
      exact steps_enough climb steady)
  unfold Fuse.unlockPath
  simp only [freed, found, Option.bind_eq_bind, Option.bind_some, went]
  rw [relocked, relock_relock]
  congr 1
  refine relock_congr fun b node has => ?_
  unfold unlockedBy dropReader
  by_cases here : wnode = some b
  · rw [if_pos here, if_pos here, if_neg fun member => apart b member here]
  · rw [if_neg here, if_neg here]

/-- Locks that have just been taken are given back as they were. -/
theorem unlockPath_lockedBy (steady : Steady holds f) (numbered : f.nodeidOf a = some nodeid)
    (climb : Climb f a links last)
    (stops : stop = some last ∨ stop = none ∧ f.nodeidOf last = some fuseRootId)
    (was : ∀ w, wnode = some w → ∃ node, f.nodes w = some node ∧ node.treelock = 0)
    (apart : ∀ b ∈ nodesOf links, wnode ≠ some b ∧
      ∀ node, f.nodes b = some node → 0 ≤ node.treelock) :
    (relock f (lockedBy wnode (nodesOf links))).unlockPath nodeid wnode stop = some f := by
  rw [unlockPath_spec steady sameNames_relock rfl rfl rfl numbered climb stops, relock_relock]
  · refine congrArg some (relock_id fun b node has => ?_)
    unfold lockedBy unlockedBy
    by_cases here : wnode = some b
    · obtain ⟨before, had, free⟩ := was b here
      obtain rfl := Option.some.inj (has.symm.trans had)
      rw [if_pos here, free]
    · rw [if_neg here, if_neg here]
      unfold addReader dropReader
      by_cases member : b ∈ nodesOf links
      · have positive := (apart b member).2 node has
        rw [if_pos member, if_pos member, Fuse.releasedLock, Int.add_sub_cancel, if_neg]
        exact fun wrong => absurd (wrong ▸ positive) (by decide)
      · rw [if_neg member, if_neg member]
  · intro w here
    obtain ⟨node, has, -⟩ := was w here
    exact ⟨_, nodes_relock has, if_pos here⟩
  · intro b member node has
    obtain ⟨before, had, rfl⟩ := Option.map_eq_some_iff.mp has
    obtain ⟨other, positive⟩ := apart b member
    have lock : lockedBy wnode (nodesOf links) b before.treelock = before.treelock + 1 := by
      rw [lockedBy, if_neg other, addReader, if_pos member]
    have free := positive before had
    simp only [lock, Readable, treelockWaitOffset, treelockWrite]
    omega

end Unlocking

section Trying

variable {f g : Fuse} {a nodeid : Nat} {name : Option Bytes} {writes : Bool} {wnode : Option Nat}
  {holds : Nat → Nat} {grants : Nat → Option Memory} {buffer : PathBuffer}

/-- The text that a path ends with. -/
def lastName (name : Option Bytes) : Bytes := name.elim [] (ascii "/" ++ ·)

/-- The path of a node has room in a buffer, whatever its names are. -/
def NamesFit (f : Fuse) (a : Nat) (name : Option Bytes) : Prop :=
  ∀ links last, Climb f a links last → Fits links (lastName name)

/-- Why a path may not be locked. -/
inductive Refusal (grants : Nat → Option Memory) (f : Fuse) (a : Nat) : Int → Prop where
  | noMemory {i : Nat} : grants i = none → Refusal grants f a ENOMEM
  | busy {b : Nat} {node : Node} : f.nodes b = some node → node.treelock ≠ 0 →
      Refusal grants f a EAGAIN
  | detached : Detached f a → Refusal grants f a ENOENT

/-- What an attempt to lock a path may come to. -/
inductive Tried (grants : Nat → Option Memory) (f : Fuse) (a nodeid : Nat) (name : Option Bytes)
    (writes : Bool) : Except Int (Bytes × Option Nat) → Fuse → Prop where
  | locked {wnode : Option Nat} {links : List (Nat × Bytes)} : Chain f a links →
      wnode = (if writes then f.lookupNode nodeid (name.getD []) else none) →
      (∀ w, wnode = some w → ∃ node, f.nodes w = some node ∧ node.treelock = 0) →
      (∀ b ∈ nodesOf links, wnode ≠ some b ∧
        ∀ node, f.nodes b = some node → 0 ≤ node.treelock) →
      Tried grants f a nodeid name writes (.ok (pathOf links name ++ [0], wnode))
        (relock f (lockedBy wnode (nodesOf links)))
  | refused {err : Int} : Refusal grants f a err → Tried grants f a nodeid name writes (.error err) f
  | waits {w : Nat} {node : Node} : writes = true → f.lookupNode nodeid (name.getD []) = some w →
      f.nodes w = some node → 0 < node.treelock →
      Tried grants f a nodeid name writes (.error EAGAIN)
        (f.setTreelock w (node.treelock + treelockWaitOffset))

theorem head_climbText (links : List (Nat × Bytes)) {text : Bytes}
    (first : ∀ byte ∈ text.head?, byte ≠ 0) : ∀ byte ∈ (climbText links text).head?, byte ≠ 0 := by
  induction links generalizing text with
  | nil => exact first
  | cons link links ih =>
      refine ih fun byte member => ?_
      obtain rfl := Option.some.inj member
      decide

theorem head_lastName : ∀ byte ∈ (lastName name).head?, byte ≠ 0 := by
  intro byte member
  cases name with
  | none => cases member
  | some name =>
      obtain rfl := Option.some.inj member
      decide

/-- The rest of `try_get_path`, once the node to be written has been locked. -/
theorem walkPath_spec (steady : Steady holds f) (numbered : f.nodeidOf a = some nodeid)
    (fits : NamesFit f a name) (holdsText : buffer.Holds (lastName name))
    (was : ∀ w, wnode = some w → ∃ node, f.nodes w = some node ∧ node.treelock = 0)
    (notAbove : ∀ links last, Climb f a links last → wnode ≠ some last) :
    ∃ result f', (relock f (lockedBy wnode [])).walkPath grants nodeid wnode true buffer =
        some (result, f') ∧
      ((∃ links, Chain f a links ∧ result = .ok (pathOf links name ++ [0], wnode) ∧
        f' = relock f (lockedBy wnode (nodesOf links)) ∧
        ∀ b ∈ nodesOf links, wnode ≠ some b ∧
          ∀ node, f.nodes b = some node → 0 ≤ node.treelock) ∨
      ∃ err, result = .error err ∧ f' = f ∧ Refusal grants f a err) := by
  set g := relock f (lockedBy wnode []) with written
  have same : Fuse.SameNames f g := sameNames_relock
  have treeg : Tree g := steady.sound.tree.congr same rfl rfl rfl
  obtain ⟨links, last, climb, stops⟩ := exists_climb steady (by rw [numbered]; exact Option.some_ne_none _)
  have found : g.getNode nodeid = some a :=
    treeg.getNode_eq_some_iff.mpr (by rw [same.nodeid, numbered])
  obtain ⟨passed, final, walked, went, climbed, ended, free⟩ :=
    @walkWithin_spec grants links g a last (lastName name) buffer (g.nameTable.use + 2) 2 treeg
      (climb.congr same) (stops.congr same) (fits links last climb) holdsText
      (show links.length < f.nameTable.use + 2 from steps_enough climb steady)
  have onwards := climbed.congr same.symm
  have apart : ∀ b ∈ nodesOf passed, wnode ≠ some b ∧
      ∀ node, f.nodes b = some node → 0 ≤ node.treelock := by
    intro b member
    have positive : wnode ≠ some b := by
      rintro rfl
      obtain ⟨node, has, -⟩ := was b rfl
      have lock := free b member _ (nodes_relock has)
      rw [lockedBy, if_pos rfl] at lock
      exact absurd (show (0 : Int) ≤ treelockWrite from lock) (by decide)
    refine ⟨positive, fun node has => ?_⟩
    have lock := free b member _ (nodes_relock has)
    rwa [lockedBy, if_neg positive] at lock
  have locked : relock g (addReader (nodesOf passed)) = relock f (lockedBy wnode (nodesOf passed)) := by
    rw [written, relock_relock]
    refine relock_congr fun b node has => ?_
    unfold lockedBy
    by_cases here : wnode = some b
    · rw [if_pos here, if_pos here, addReader, if_neg fun member => (apart b member).1 here]
    · rw [if_neg here, if_neg here]
      rfl
  have undone : (relock f (lockedBy wnode (nodesOf passed))).unlockPath nodeid wnode (some final) =
      some f := unlockPath_lockedBy steady numbered onwards (.inl rfl) was apart
  unfold Fuse.walkPath
  simp only [found, went, locked, Option.bind_eq_bind, Option.bind_some]
  cases ended with
  | @reached full root holdsPath =>
      rw [same.nodeid] at root
      obtain rfl := root_of_nodeidOf steady.sound.tree root
      refine ⟨_, _, rfl, .inl ⟨passed, onwards, ?_, rfl, apart⟩⟩
      rw [PathBuffer.finish_spec holdsPath (head_climbText passed head_lastName)]
      rfl
  | noMemory short =>
      simp only [undone, if_true, Option.bind_some]
      exact ⟨_, _, rfl, .inr ⟨ENOMEM, rfl, rfl, .noMemory short⟩⟩
  | locked has negative =>
      simp only [undone, if_true, Option.bind_some]
      obtain ⟨node, had, rfl⟩ := Option.map_eq_some_iff.mp has
      simp only [lockedBy, notAbove passed final onwards, if_false] at negative
      exact ⟨_, _, rfl, .inr ⟨EAGAIN, rfl, rfl, .busy had negative.ne⟩⟩
  | detached notRoot loose =>
      rw [same.nodeid] at notRoot
      rw [same.name, same.parent] at loose
      simp only [undone, if_true, Option.bind_some]
      exact ⟨_, _, rfl, .inr ⟨ENOENT, rfl, rfl, .detached ⟨passed, final, onwards, notRoot, loose⟩⟩⟩

/-- Trying to lock the path of a node never aborts, and it locks the whole path or nothing. -/
theorem tryGetPath_spec (steady : Steady holds f) (numbered : f.nodeidOf a = some nodeid)
    (fits : NamesFit f a name) :
    ∃ result f', f.tryGetPath grants nodeid name writes true = some (result, f') ∧
      Tried grants f a nodeid name writes result f' := by
  have start : grants 0 = none ∨ ∃ memory, grants 0 = some memory ∧
      (grants 1 = none ∧ Fuse.startPath grants memory name = some none ∨ ∃ buffer,
        Fuse.startPath grants memory name = some (some buffer) ∧ buffer.Holds (lastName name)) := by
    cases given : grants 0 with
    | none => exact .inl rfl
    | some memory =>
        refine .inr ⟨memory, rfl, ?_⟩
        cases name with
        | none => exact .inr ⟨_, rfl, PathBuffer.holds_empty⟩
        | some name =>
            have room := fits [] a (.here a)
            have length : (ascii "/" ++ name).length = 1 + name.length := by
              rw [List.length_append]
              rfl
            have bound : (ascii "/" ++ name).length + 1 ≤ 0xffffffff := room
            rcases @PathBuffer.addName_spec (.empty memory) [] name (grants 1)
                PathBuffer.holds_empty (by rw [List.length_nil]; omega) with
              short | ⟨longer, added, holdsText⟩
            · exact .inl short
            · rw [List.append_nil] at holdsText
              exact .inr ⟨longer, added, holdsText⟩
  have unwritten : relock f (lockedBy none []) = f := relock_id fun _ _ _ => rfl
  unfold Fuse.tryGetPath
  rcases start with short | ⟨memory, given, ⟨refused, short⟩ | ⟨buffer, started, holdsText⟩⟩
  · simp only [short]
    exact ⟨_, _, rfl, .refused (.noMemory short)⟩
  · simp only [given, short, Option.bind_eq_bind, Option.bind_some]
    exact ⟨_, _, rfl, .refused (.noMemory refused)⟩
  · simp only [given, started, Option.bind_eq_bind, Option.bind_some]
    cases writes with
    | false =>
        obtain ⟨result, f', went, outcome⟩ := @walkPath_spec f a nodeid name none holds grants buffer
          steady numbered fits holdsText (fun w wrong => by cases wrong) fun _ _ _ wrong => by cases wrong
        rw [unwritten] at went
        refine ⟨result, f', went, ?_⟩
        rcases outcome with ⟨links, chain, rfl, rfl, free⟩ | ⟨err, rfl, rfl, detached⟩
        · exact .locked chain rfl (fun w wrong => by cases wrong) free
        · exact .refused detached
    | true =>
        cases found : f.lookupNode nodeid (name.getD []) with
        | none =>
            obtain ⟨result, f', went, outcome⟩ := @walkPath_spec f a nodeid name none holds grants
              buffer steady numbered fits holdsText (fun w wrong => by cases wrong)
              fun _ _ _ wrong => by cases wrong
            rw [unwritten] at went
            refine ⟨result, f', ?_, ?_⟩
            · simp only [Fuse.lockWritten, found, Option.bind_some]
              exact went
            · rcases outcome with ⟨links, chain, rfl, rfl, free⟩ | ⟨err, rfl, rfl, detached⟩
              · exact .locked chain found.symm (fun w wrong => by cases wrong) free
              · exact .refused detached
        | some w =>
            obtain ⟨member, parent, above, onDir, -⟩ :=
              steady.sound.tree.lookupNode_eq_some_iff.mp found
            obtain rfl := steady.sound.tree.idSingle parent a nodeid onDir numbered
            obtain ⟨node, _, _, has, _⟩ := steady.sound.tree.exists_parent member
            have notAbove : ∀ links last, Climb f parent links last → some w ≠ some last := by
              rintro links last climb same
              exact (climb.ne_of_above steady.sound.tree above).2 (Option.some.inj same).symm
            by_cases free : node.treelock = 0
            · have was : ∀ b, some w = some b → ∃ node, f.nodes b = some node ∧ node.treelock = 0 := by
                intro b here
                rw [← Option.some.inj here]
                exact ⟨node, has, free⟩
              obtain ⟨result, f', went, outcome⟩ := @walkPath_spec f parent nodeid name (some w) holds grants
                buffer steady numbered fits holdsText was notAbove
              have written : f.setTreelock w treelockWrite = relock f (lockedBy (some w) []) := by
                rw [setTreelock_eq_relock]
                congr 1
                funext b treelock
                simp only [lockedBy, Option.some.injEq, eq_comm]
                rfl
              refine ⟨result, f', ?_, ?_⟩
              · simp only [Fuse.lockWritten, found, has, free, if_true, Option.bind_some, written]
                exact went
              · rcases outcome with ⟨links, chain, rfl, rfl, rest⟩ | ⟨err, rfl, rfl, detached⟩
                · exact .locked chain found.symm was rest
                · exact .refused detached
            · by_cases readers : 0 < node.treelock
              · refine ⟨.error EAGAIN, f.setTreelock w (node.treelock + treelockWaitOffset), ?_,
                  .waits rfl found has readers⟩
                simp only [Fuse.lockWritten, found, has, free, readers, if_true, if_false,
                  Option.bind_some]
                rfl
              · refine ⟨.error EAGAIN, f, ?_, .refused (.busy has free)⟩
                simp only [Fuse.lockWritten, found, has, free, readers, if_false, Option.bind_some]
                rfl

end Trying

end Libfuse

end NosqlFS
