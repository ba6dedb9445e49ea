import NosqlFS.Libfuse.Session

/-!
# What holds while operations run side by side

The lock of a node counts the paths that lead through it, or says that one operation may
move it.  A node that may be moved is therefore on no path that is locked, and a path
that is locked stays the path of its node until it is unlocked.
-/

namespace NosqlFS

namespace Libfuse

open LinearHash LinearHash.Table Text LockWord

/-! ## Ways that stay -/

section Ways

variable {f f' : Fuse} {a b last nodeid : Nat} {links : List (Nat × Bytes)} {holds : Nat → Nat}

theorem Climb.mono (climb : Climb f a links last) (same : ∀ b ∈ nodesOf links,
    f'.nodeidOf b = f.nodeidOf b ∧ f'.nameOf b = f.nameOf b ∧ f'.parentOf b = f.parentOf b) :
    Climb f' a links last := by
  induction climb with
  | here a => exact .here a
  | @up a parent _ _ _ links numbered apart called above _ ih =>
      obtain ⟨number, name, up⟩ := same a List.mem_cons_self
      exact .up (number.trans numbered) apart (name.trans called) (up.trans above)
        (ih fun b member => same b (List.mem_cons_of_mem _ member))

/-- Everything above a node is on its way to the root. -/
theorem Chain.mem_of_above (chain : Chain f a links) (tree : Tree f)
    (above : b = a ∨ f.Below a b) : b ∈ nodesOf links ∨ b = rootNode := by
  unfold Chain at chain
  generalize top : rootNode = last at chain ⊢
  induction chain with
  | here a =>
      subst top
      rcases above with rfl | below
      · exact .inr rfl
      · obtain ⟨parent, up, -⟩ := Relation.TransGen.head'_iff.mp below
        rw [tree.root.2.1] at up
        cases up
  | @up a parent _ _ _ links _ _ _ up _ ih =>
      rcases above with rfl | below
      · exact .inl List.mem_cons_self
      · obtain ⟨parent', up', rest⟩ := Relation.TransGen.head'_iff.mp below
        obtain rfl := Option.some.inj (up.symm.trans up')
        have further : b = parent ∨ f.Below parent b := by
          rcases Relation.reflTransGen_iff_eq_or_transGen.mp rest with same | under
          · exact .inl same
          · exact .inr under
        exact (ih further top).imp_left (List.mem_cons_of_mem _)

theorem linksWithin_eq (chain : Chain f a links) (tree : Tree f) {steps : Nat}
    (enough : links.length < steps) : Fuse.linksWithin steps f a = links := by
  unfold Chain at chain
  generalize top : rootNode = last at chain
  induction chain generalizing steps with
  | here a =>
      subst top
      obtain ⟨steps, rfl⟩ := Nat.exists_eq_succ_of_ne_zero (Nat.ne_zero_of_lt enough)
      rw [Fuse.linksWithin, tree.root.2.1]
      cases f.nameOf rootNode <;> rfl
  | up _ _ called above _ ih =>
      obtain ⟨steps, rfl⟩ := Nat.exists_eq_succ_of_ne_zero (Nat.ne_zero_of_lt enough)
      rw [Fuse.linksWithin, called, above]
      exact congrArg _ (ih (Nat.lt_of_succ_lt_succ enough) top)

theorem linksOf_eq (chain : Chain f a links) (steady : Steady holds f)
    (numbered : f.nodeidOf a = some nodeid) : f.linksOf nodeid = links := by
  have found : f.getNodeNocheck nodeid = some a :=
    steady.sound.tree.getNode_eq_some_iff.mpr numbered
  rw [Fuse.linksOf, found]
  exact linksWithin_eq chain steady.sound.tree (Nat.lt_succ_of_le (chain.length_le steady))

end Ways

/-! ## The invariant -/

namespace Session

/-- The paths that lead through a node. -/
def readers (holdings : List Holding) (a : Nat) : Nat :=
  (holdings.map fun h => (nodesOf h.links).count a).sum

/-- The operations that may move a node. -/
def writers (holdings : List Holding) (a : Nat) : Nat :=
  holdings.countP fun h => h.wnode = some a

/-- The names that operations may change. -/
def targets (holdings : List Holding) : List (Nat × Option Bytes) :=
  (holdings.filter Holding.armed).map fun h => (h.nodeid, h.name)

/-- What holds of a path that is locked: its node is known and the way up is still there,
and the node that may be moved is the one under the name, unless nobody has it. -/
structure Held (s : Session) (h : Holding) : Prop where
  knows : s.Knows h.nodeid
  chain : ∃ a, s.fuse.nodeidOf a = some h.nodeid ∧ Chain s.fuse a h.links
  written : ∀ w, h.wnode = some w → w ≠ rootNode ∧
    ∃ node, s.fuse.nodes w = some node ∧ 0 < s.owed node.nodeid
  armed : h.armed = true → ∃ n, h.name = some n ∧
    ∀ x, s.fuse.lookupNode h.nodeid n = some x → h.wnode = some x
  path : h.path = pathOf h.links h.name ++ [0]

/-- What holds between two steps. -/
structure Inv (s : Session) : Prop where
  steady : Steady (fun a => s.dots.count a) s.fuse
  counting : s.fuse.Counting
  dots : ∀ a ∈ s.dots, (s.fuse.nodeidOf a).isSome = true
  owed : ∀ a node, s.fuse.nodes a = some node → a ≠ rootNode → node.nlookup = s.owed node.nodeid
  known : ∀ nodeid, s.Knows nodeid → ∃ a, s.fuse.nodeidOf a = some nodeid
  locks : ∀ a node, s.fuse.nodes a = some node →
    Encodes treelockWaitOffset (readers s.holdings a) (writers s.holdings a) node.treelock
  held : ∀ h ∈ s.holdings, Held s h
  single : (targets s.holdings).Nodup
  few : (s.holdings.length : Int) + 1 + treelockWaitOffset < -1

section Counting

variable {holdings holdings' : List Holding} {h : Holding} {a w : Nat}

theorem readers_perm (perm : List.Perm holdings holdings') : readers holdings a = readers holdings' a :=
  (perm.map _).sum_eq

theorem writers_perm (perm : List.Perm holdings holdings') : writers holdings a = writers holdings' a :=
  perm.countP_eq _

theorem readers_pos (member : h ∈ holdings) (onWay : a ∈ nodesOf h.links) : 0 < readers holdings a := by
  rw [readers_perm (List.perm_cons_erase member), readers, List.map_cons, List.sum_cons]
  exact Nat.add_pos_left (List.count_pos_iff.mpr onWay) _

theorem writers_pos (member : h ∈ holdings) (writes : h.wnode = some w) : 0 < writers holdings w :=
  List.countP_pos_iff.mpr ⟨h, member, decide_eq_true writes⟩

/-- Every path leads at most once through a node. -/
theorem readers_le_length (distinct : ∀ h ∈ holdings, (nodesOf h.links).Nodup) :
    readers holdings a ≤ holdings.length := by
  induction holdings with
  | nil => exact Nat.le_refl _
  | cons h rest ih =>
      have once := List.nodup_iff_count_le_one.mp (distinct h List.mem_cons_self) a
      have others := ih fun h' member => distinct h' (List.mem_cons_of_mem _ member)
      rw [readers, List.map_cons, List.sum_cons, List.length_cons]
      change _ + readers rest a ≤ _
      omega

theorem Held.nodup {s : Session} (held : Held s h) (tree : Tree s.fuse) : (nodesOf h.links).Nodup := by
  obtain ⟨_, -, chain⟩ := held.chain
  exact Climb.nodup chain tree

end Counting

namespace Inv

variable {s : Session} {h h' : Holding} {a b nodeid : Nat} {node : Node}

theorem readers_le (inv : Inv s) (a : Nat) : readers s.holdings a ≤ s.holdings.length :=
  readers_le_length fun h member => (inv.held h member).nodup inv.steady.sound.tree

theorem few_readers (inv : Inv s) (a : Nat) :
    ((readers s.holdings a : Nat) : Int) + 1 + treelockWaitOffset < -1 := by
  have bound := inv.readers_le a
  have few := inv.few
  omega

/-- A directory that the kernel knows is in memory, and it stays there. -/
theorem knownDir (inv : Inv s) (knows : s.Knows nodeid) : ∃ a, KnownDir s.fuse nodeid a := by
  obtain ⟨a, numbered⟩ := inv.known nodeid knows
  refine ⟨a, numbered, fun node has => ?_⟩
  by_cases root : a = rootNode
  · subst root
    exact Nat.pos_iff_ne_zero.mp (inv.steady.sound.counts.rootKnown node has)
  · rw [inv.owed a node has root]
    have same : node.nodeid = nodeid := by
      rw [Fuse.nodeidOf, has] at numbered
      exact Option.some.inj numbered
    rw [same]
    refine Nat.pos_iff_ne_zero.mp (knows.resolve_left fun top => root ?_)
    exact root_of_nodeidOf inv.steady.sound.tree (top ▸ numbered)

/-- A node on a path that is locked is not moved. -/
theorem onWay (inv : Inv s) (member : h ∈ s.holdings) (onWay : b ∈ nodesOf h.links)
    (has : s.fuse.nodes b = some node) : node.treelock ≠ 0 ∧ writers s.holdings b = 0 := by
  have encodes := inv.locks b node has
  have read := readers_pos member onWay
  have few := inv.few_readers b
  refine ⟨(encodes.ne_zero_of_read read (by omega)).1, ?_⟩
  rcases encodes.excludes with none | none
  · omega
  · exact none

/-- The node that an operation may move can be moved below every directory whose path is
locked. -/
theorem movableTo (inv : Inv s) (member : h ∈ s.holdings) (other : h' ∈ s.holdings)
    (writes : h.wnode = some b) {dir target : Nat} (knows : s.Knows dir) {name : Bytes}
    (found : s.fuse.lookupNode dir name = some b)
    (numbered : s.fuse.nodeidOf target = some h'.nodeid) : MovableTo s.fuse b target := by
  have tree := inv.steady.sound.tree
  obtain ⟨notRoot, node, has, known⟩ := (inv.held h member).written b writes
  have looked : node.nlookup ≠ 0 := by
    rw [inv.owed b node has notRoot]
    exact known.ne'
  obtain ⟨a, numbered', chain⟩ := (inv.held h' other).chain
  obtain rfl := tree.idSingle target a _ numbered numbered'
  have apart : ∀ c, c = target ∨ s.fuse.Below target c → c ≠ b := by
    rintro c above rfl
    rcases chain.mem_of_above tree above with onWay | root
    · have free := (inv.onWay other onWay has).2
      have taken := writers_pos member writes
      omega
    · exact notRoot root
  refine ⟨⟨⟨node, has, .inl looked⟩, fun parent above onParent hasAbove => ?_⟩, apart target (.inl rfl),
    fun below => apart b (.inr below) rfl⟩
  obtain ⟨d, knownDir⟩ := inv.knownDir knows
  obtain ⟨-, up, on, numberedUp, -⟩ := tree.lookupNode_eq_some_iff.mp found
  obtain rfl := Option.some.inj (onParent.symm.trans on)
  obtain rfl := tree.idSingle parent d _ numberedUp knownDir.numbered
  exact knownDir.known above hasAbove

end Inv

/-! ## Steps that leave the locks alone -/

/-- What a step does that takes no lock: nodes that somebody needs stay, those that are new
are free, and only some are moved. -/
structure Follows (moved : Set Nat) (s s' : Session) : Prop where
  kept : ∀ b node, s.fuse.nodes b = some node → (b = rootNode ∨ 0 < s'.owed node.nodeid ∨
    node.treelock ≠ 0) → (s'.fuse.nodes b).isSome = true
  back : ∀ b node', s'.fuse.nodes b = some node' → (∃ node, s.fuse.nodes b = some node ∧
    node'.nodeid = node.nodeid ∧ node'.treelock = node.treelock ∧
    (b ∉ moved → node'.parent = node.parent ∧ node'.name = node.name)) ∨
    s.fuse.nodes b = none ∧ node'.treelock = 0
  dots : ∀ a ∈ s'.dots, (s'.fuse.nodes a).isSome = true
  owed : ∀ a node', s'.fuse.nodes a = some node' → a ≠ rootNode →
    node'.nlookup = s'.owed node'.nodeid
  known : ∀ nodeid, 0 < s'.owed nodeid → 0 < s.owed nodeid ∨
    ∃ a, s'.fuse.nodeidOf a = some nodeid
  locked : ∀ a node, s.fuse.nodes a = some node → node.treelock ≠ 0 → 0 < s.owed node.nodeid →
    0 < s'.owed node.nodeid

theorem disarm_perm {s : Session} {holdings : List Holding} (within : holdings.Subperm s.holdings) :
    ((s.disarm holdings).map Holding.disarmed).Perm (s.holdings.map Holding.disarmed) := by
  rw [disarm, List.map_append, List.map_map, show Holding.disarmed ∘ Holding.disarmed =
    Holding.disarmed from rfl, ← List.map_append]
  exact (List.subperm_append_diff_self_of_count_le
    (List.subperm_ext_iff.mp within)).map Holding.disarmed

section Disarm

variable {s : Session} {holdings : List Holding} {h : Holding} {a : Nat}

theorem readers_disarm (within : holdings.Subperm s.holdings) :
    readers (s.disarm holdings) a = readers s.holdings a := by
  have same : ∀ all : List Holding, readers (all.map Holding.disarmed) a = readers all a := by
    intro all
    rw [readers, List.map_map]
    rfl
  rw [← same, readers_perm (disarm_perm within), same]

theorem writers_disarm (within : holdings.Subperm s.holdings) :
    writers (s.disarm holdings) a = writers s.holdings a := by
  have same : ∀ all : List Holding, writers (all.map Holding.disarmed) a = writers all a := by
    intro all
    rw [writers, List.countP_map]
    rfl
  rw [← same, writers_perm (disarm_perm within), same]

theorem length_disarm (within : holdings.Subperm s.holdings) :
    (s.disarm holdings).length = s.holdings.length := by
  have same := (disarm_perm within).length_eq
  rwa [List.length_map, List.length_map] at same

theorem mem_disarm (within : holdings.Subperm s.holdings) (member : h ∈ s.disarm holdings) :
    ∃ before ∈ s.holdings, h = before ∨ h = before.disarmed := by
  rcases List.mem_append.mp member with disarmed | left
  · obtain ⟨before, was, rfl⟩ := List.mem_map.mp disarmed
    exact ⟨before, within.subset was, .inr rfl⟩
  · exact ⟨h, List.diff_subset _ _ left, .inl rfl⟩

/-- The holdings that stay armed are not among those that no longer are. -/
theorem targets_disarm (within : holdings.Subperm s.holdings) :
    (targets holdings ++ targets (s.disarm holdings)).Perm (targets s.holdings) := by
  have none : targets (holdings.map Holding.disarmed) = [] := by
    rw [targets, List.map_eq_nil_iff, List.filter_eq_nil_iff]
    intro h member armed
    obtain ⟨_, _, rfl⟩ := List.mem_map.mp member
    cases armed
  have left : targets (s.disarm holdings) = targets (s.holdings.diff holdings) := by
    rw [disarm, targets, List.filter_append, List.map_append]
    exact congrArg (· ++ _) none
  rw [left, targets, targets, targets, ← List.map_append, ← List.filter_append]
  exact ((List.subperm_append_diff_self_of_count_le
    (List.subperm_ext_iff.mp within)).filter _).map _

end Disarm

theorem readers_eq_zero {holdings : List Holding} {a : Nat}
    (none : ∀ h ∈ holdings, a ∉ nodesOf h.links) : readers holdings a = 0 := by
  refine List.sum_eq_zero fun count member => ?_
  obtain ⟨h, was, rfl⟩ := List.mem_map.mp member
  exact List.count_eq_zero.mpr (none h was)

theorem writers_eq_zero {holdings : List Holding} {a : Nat}
    (none : ∀ h ∈ holdings, h.wnode ≠ some a) : writers holdings a = 0 :=
  List.countP_eq_zero.mpr fun h member => by
    rw [decide_eq_true_eq]
    exact none h member

section Follow

variable {s s' : Session} {h : Holding} {a b nodeid : Nat} {node : Node} {moved : Set Nat}
  {holdings : List Holding} {holds : Nat → Nat}

theorem chain_start {f : Fuse} {links : List (Nat × Bytes)} (chain : Chain f a links) :
    a = rootNode ∨ a ∈ nodesOf links := by
  unfold Chain at chain
  cases chain with
  | here => exact .inl rfl
  | up => exact .inr List.mem_cons_self

/-- The nodes of a path that is locked are in memory. -/
theorem Held.inMemory (held : Held s h) (inv : Inv s) (onWay : b ∈ nodesOf h.links) :
    ∃ node, s.fuse.nodes b = some node := by
  obtain ⟨a, -, chain⟩ := held.chain
  obtain ⟨node, _, _, has, -⟩ :=
    inv.steady.sound.tree.exists_parent (chain.isNamed inv.steady onWay)
  exact ⟨node, has⟩

namespace Follows

theorem stays (follows : Follows moved s s') (has : s.fuse.nodes b = some node)
    (needed : b = rootNode ∨ 0 < s'.owed node.nodeid ∨ node.treelock ≠ 0) :
    ∃ node', s'.fuse.nodes b = some node' ∧ node'.nodeid = node.nodeid ∧
      node'.treelock = node.treelock ∧
      (b ∉ moved → node'.parent = node.parent ∧ node'.name = node.name) := by
  obtain ⟨node', has'⟩ := Option.isSome_iff_exists.mp (follows.kept b node has needed)
  rcases follows.back b node' has' with ⟨before, had, same⟩ | ⟨none, -⟩
  · obtain rfl := Option.some.inj (has.symm.trans had)
    exact ⟨node', has', same⟩
  · rw [none] at has
    cases has

theorem nodeidOf (follows : Follows moved s s') (has : s.fuse.nodes b = some node)
    (needed : b = rootNode ∨ 0 < s'.owed node.nodeid ∨ node.treelock ≠ 0) :
    s'.fuse.nodeidOf b = some node.nodeid := by
  obtain ⟨node', has', same, -⟩ := follows.stays has needed
  rw [Fuse.nodeidOf, has', Option.map_some, same]

/-- A node that is found and that has not been moved was found before, or it is new. -/
theorem lookupNode (follows : Follows moved s s') (steady : Steady holds s.fuse)
    (tree : Tree s'.fuse) {dir : Nat} {name : Bytes} (found : s'.fuse.lookupNode dir name = some b)
    (still : b ∉ moved) : s.fuse.lookupNode dir name = some b ∨ s.fuse.nodes b = none := by
  obtain ⟨-, parent, above, numbered, called⟩ := tree.lookupNode_eq_some_iff.mp found
  obtain ⟨node', has', on⟩ := Option.bind_eq_some_iff.mp above
  rcases follows.back b node' has' with ⟨node, has, -, -, names⟩ | ⟨new, -⟩
  · obtain ⟨sameParent, sameName⟩ := names still
    have up : s.fuse.parentOf b = some parent := by rw [parentOf_eq has, ← sameParent, on]
    have member := isNamed_of_parentOf steady up
    refine .inl (steady.sound.tree.lookupNode_eq_some_iff.mpr ⟨member, parent, up, ?_, ?_⟩)
    · obtain ⟨before, parent', aboveNode, had, on', hasAbove⟩ :=
        steady.sound.tree.exists_parent member
      rw [parentOf_eq had, on'] at up
      obtain rfl := Option.some.inj up
      obtain ⟨above', hasAbove', same⟩ := Option.map_eq_some_iff.mp numbered
      rcases follows.back parent' above' hasAbove' with ⟨first, hadAbove, number, -⟩ | ⟨new, -⟩
      · rw [Fuse.nodeidOf, hadAbove, Option.map_some, ← number, same]
      · rw [new] at hasAbove
        cases hasAbove
    · rw [← called, Fuse.nameOf, Fuse.nameOf, has, has']
      exact sameName.symm
  · exact .inr new

theorem held (follows : Follows moved s s') (inv : Inv s)
    (still : ∀ b ∈ moved, 0 < writers s.holdings b) (member : h ∈ s.holdings) {armed : Bool}
    (quiet : armed = true → h.armed = true ∧ ∀ n x, h.name = some n →
      s'.fuse.lookupNode h.nodeid n = some x → s.fuse.lookupNode h.nodeid n = some x) :
    Held s' { h with armed := armed } := by
  have held := inv.held h member
  obtain ⟨a, numbered, chain⟩ := held.chain
  have onWay : ∀ b ∈ nodesOf h.links, ∃ node node', s.fuse.nodes b = some node ∧
      s'.fuse.nodes b = some node' ∧ node.treelock ≠ 0 ∧ node'.nodeid = node.nodeid ∧
      node'.parent = node.parent ∧ node'.name = node.name := by
    intro b member'
    obtain ⟨node, has⟩ := held.inMemory inv member'
    obtain ⟨locked, unwritten⟩ := inv.onWay member member' has
    obtain ⟨node', has', number, -, names⟩ := follows.stays has (.inr (.inr locked))
    have apart : b ∉ moved := fun wrong => (still b wrong).ne' unwritten
    exact ⟨node, node', has, has', locked, number, names apart⟩
  refine ⟨?_, ⟨a, ?_, chain.mono fun b member' => ?_⟩, fun w writes => ?_, fun armed => ?_, held.path⟩
  · rcases chain_start chain with root | first
    · rw [root, inv.steady.sound.tree.root.1] at numbered
      exact .inl (Option.some.inj numbered).symm
    · obtain ⟨node, -, has, -, locked, -⟩ := onWay a first
      have same : node.nodeid = h.nodeid := by
        rw [Fuse.nodeidOf, has] at numbered
        exact Option.some.inj numbered
      rw [← same]
      exact held.knows.imp (same.trans ·) fun known =>
        follows.locked a node has locked (same ▸ known)
  · rcases chain_start chain with root | first
    · obtain ⟨node, has, same⟩ := Option.map_eq_some_iff.mp numbered
      rw [← same]
      exact follows.nodeidOf has (.inl root)
    · obtain ⟨node, node', has, has', -, number, -⟩ := onWay a first
      rw [← numbered, Fuse.nodeidOf, Fuse.nodeidOf, has, has']
      exact congrArg some number
  · obtain ⟨node, node', has, has', -, number, parent, name⟩ := onWay b member'
    simp only [Fuse.nodeidOf, Fuse.nameOf, Fuse.parentOf, has, has', Option.map_some,
      Option.bind_some, number, parent, name, and_self]
  · obtain ⟨notRoot, node, has, known⟩ := held.written w writes
    have locked : node.treelock ≠ 0 := by
      rw [(inv.locks w node has).eq_of_written (writers_pos member writes)]
      decide
    obtain ⟨node', has', number, -⟩ := follows.stays has (.inr (.inr locked))
    exact ⟨notRoot, node', has', by rw [number]; exact follows.locked w node has locked known⟩
  · obtain ⟨before, quiet⟩ := quiet armed
    obtain ⟨n, called, same⟩ := held.armed before
    exact ⟨n, called, fun x found => same x (quiet n x called found)⟩

end Follows

/-- The invariant is kept by a step that moves only what its operation may move, and that
makes no name that another operation is about to change. -/
theorem Inv.follow (inv : Inv s) (follows : Follows moved s s')
    (steady : Steady (fun a => s'.dots.count a) s'.fuse) (counting : s'.fuse.Counting)
    (still : ∀ b ∈ moved, 0 < writers s.holdings b) (within : holdings.Subperm s.holdings)
    (disarmed : s'.holdings = s.disarm holdings)
    (quiet : ∀ h ∈ s'.holdings, h.armed = true → ∀ n x, h.name = some n →
      s'.fuse.lookupNode h.nodeid n = some x → s.fuse.lookupNode h.nodeid n = some x) :
    Inv s' := by
  refine ⟨steady, counting, fun a member => ?_, follows.owed, ?_, fun a node' has' => ?_,
    fun h member => ?_, ?_, ?_⟩
  · obtain ⟨node, has⟩ := Option.isSome_iff_exists.mp (follows.dots a member)
    exact nodeidOf_isSome has
  · rintro nodeid (rfl | known)
    · obtain ⟨node, has, same⟩ := Option.map_eq_some_iff.mp inv.steady.sound.tree.root.1
      exact ⟨rootNode, same ▸ follows.nodeidOf has (.inl rfl)⟩
    · rcases follows.known nodeid known with before | new
      · obtain ⟨a, numbered⟩ := inv.known nodeid (.inr before)
        obtain ⟨node, has, rfl⟩ := Option.map_eq_some_iff.mp numbered
        exact ⟨a, follows.nodeidOf has (.inr (.inl known))⟩
      · exact new
  · rw [disarmed, readers_disarm within, writers_disarm within]
    rcases follows.back a node' has' with ⟨node, has, -, same, -⟩ | ⟨none, free⟩
    · rw [same]
      exact inv.locks a node has
    · have unread : readers s.holdings a = 0 := readers_eq_zero fun h member onWay => by
        obtain ⟨node, has⟩ := (inv.held h member).inMemory inv onWay
        rw [none] at has
        cases has
      have unwritten : writers s.holdings a = 0 := writers_eq_zero fun h member writes => by
        obtain ⟨-, node, has, -⟩ := (inv.held h member).written a writes
        rw [none] at has
        cases has
      rw [unread, unwritten, free]
      exact encodes_free
  · have still_quiet := quiet h member
    rw [disarmed] at member
    obtain ⟨before, was, rfl | rfl⟩ := mem_disarm within member
    · exact follows.held inv still was fun armed => ⟨armed, still_quiet armed⟩
    · exact follows.held inv still was fun wrong => by cases wrong
  · have single := (targets_disarm within).nodup_iff.mpr inv.single
    rw [disarmed]
    exact (List.nodup_append.mp single).2.1
  · rw [disarmed, length_disarm within]
    exact inv.few

end Follow

end Session

end Libfuse

end NosqlFS
