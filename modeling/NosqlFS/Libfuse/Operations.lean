import NosqlFS.Libfuse.Naming

/-!
# What the operations do

Each operation on a steady node table succeeds and leaves it steady.  The numbers, the
lookups and the locks of the nodes stay, and only the nodes that are moved change their
names.
-/

namespace NosqlFS

namespace Libfuse

open LinearHash LinearHash.Table Text

/-- What operations may do to the nodes: those that nobody looked up, locked or holds may
go, and some are moved. -/
structure Changed (holds : Nat → Nat) (moved : Set Nat) (f f' : Fuse) : Prop where
  kept : ∀ b node, f.nodes b = some node → (node.nlookup ≠ 0 ∨ node.treelock ≠ 0 ∨ holds b ≠ 0) →
    (f'.nodes b).isSome = true
  back : ∀ b node', f'.nodes b = some node' → ∃ node, f.nodes b = some node ∧
    node'.nodeid = node.nodeid ∧ node'.generation = node.generation ∧
    node'.nlookup = node.nlookup ∧ node'.treelock = node.treelock ∧
    (b ∉ moved → node'.parent = node.parent ∧ node'.name = node.name)
  ctr : f'.ctr = f.ctr
  generation : f'.generation = f.generation

section Changes

variable {f f' f'' : Fuse} {moved moved' : Set Nat} {a : Nat} {holds : Nat → Nat}

theorem Changed.refl (f : Fuse) : Changed holds moved f f :=
  ⟨fun b node has _ => by rw [has]; rfl,
    fun b node has => ⟨node, has, rfl, rfl, rfl, rfl, fun _ => ⟨rfl, rfl⟩⟩, rfl, rfl⟩

theorem Changed.trans (first : Changed holds moved f f') (second : Changed holds moved' f' f'') :
    Changed holds (moved ∪ moved') f f'' := by
  refine ⟨fun b node has stays => ?_, fun b node'' has'' => ?_, second.ctr.trans first.ctr,
    second.generation.trans first.generation⟩
  · obtain ⟨node', has'⟩ := Option.isSome_iff_exists.mp (first.kept b node has stays)
    obtain ⟨before, had, _, _, nlookup, treelock, _⟩ := first.back b node' has'
    obtain rfl := Option.some.inj (has.symm.trans had)
    exact second.kept b node' has' (by rwa [nlookup, treelock])
  · obtain ⟨node', has', nodeid', generation', nlookup', treelock', names'⟩ :=
      second.back b node'' has''
    obtain ⟨node, has, nodeid, generation, nlookup, treelock, names⟩ := first.back b node' has'
    refine ⟨node, has, nodeid'.trans nodeid, generation'.trans generation, nlookup'.trans nlookup,
      treelock'.trans treelock, fun still => ?_⟩
    obtain ⟨before, after⟩ := not_or.mp still
    exact ⟨(names' after).1.trans (names before).1, (names' after).2.trans (names before).2⟩

theorem Changed.mono (changed : Changed holds moved f f') (more : moved ⊆ moved') :
    Changed holds moved' f f' :=
  { changed with
    back := fun b node' has' => by
      obtain ⟨node, has, nodeid, generation, nlookup, treelock, names⟩ := changed.back b node' has'
      exact ⟨node, has, nodeid, generation, nlookup, treelock, fun still =>
        names fun old => still (more old)⟩ }

theorem Pruned.changed {cleared : Option Nat} (pruned : Pruned holds cleared f f') :
    Changed holds { b | cleared = some b } f f' := by
  refine ⟨fun b node has stays => ?_, fun b node' has' => ?_, pruned.ctr, pruned.generation⟩
  · by_contra gone
    obtain ⟨unknown, unlocked, unheld, -⟩ :=
      pruned.lost b node has (Option.not_isSome_iff_eq_none.mp gone)
    exact stays.elim (absurd unknown) (Or.rec (absurd unlocked) (absurd unheld))
  · obtain ⟨node, has, -, same⟩ := pruned.same b node' has'
    refine ⟨node, has, ?_⟩
    rw [same]
    by_cases here : cleared = some b
    · rw [if_pos here]
      exact ⟨rfl, rfl, rfl, rfl, fun still => absurd here still⟩
    · rw [if_neg here]
      exact ⟨rfl, rfl, rfl, rfl, fun _ => ⟨rfl, rfl⟩⟩

theorem Pruned.alive {cleared : Option Nat} (pruned : Pruned holds cleared f f')
    (alive : ∀ a node, f.nodes a = some node → node.refctr ≠ 0) :
    ∀ a node', f'.nodes a = some node' → node'.refctr ≠ 0 := by
  intro a node' has'
  obtain ⟨node, has, zero, -⟩ := pruned.same a node' has'
  exact mt zero.mpr (alive a node has)

/-- Dropping a reference that an operation held leaves the table steady. -/
theorem steady_unrefNode (sound : Sound ∅ (oneMore holds a) f)
    (alive : ∀ a node, f.nodes a = some node → node.refctr ≠ 0)
    (inMemory : (f.nodeidOf a).isSome = true) :
    ∃ f', f.unrefNode a = some f' ∧ Steady holds f' ∧ Changed holds ∅ f f' := by
  obtain ⟨f', dropped, sound', pruned⟩ := unrefNode_spec sound inMemory
  refine ⟨f', dropped, ⟨sound', pruned.alive alive⟩, pruned.changed.mono ?_⟩
  intro b here
  cases here

/-- A change of the counters of one node alone. -/
theorem changed_modify {change : Node → Node} (nodeid : ∀ node, (change node).nodeid = node.nodeid)
    (generation : ∀ node, (change node).generation = node.generation)
    (nlookup : ∀ node, (change node).nlookup = node.nlookup)
    (treelock : ∀ node, (change node).treelock = node.treelock)
    (names : a ∉ moved → ∀ node, (change node).parent = node.parent ∧
      (change node).name = node.name) : Changed holds moved f (f.modify a change) := by
  refine ⟨fun b node has _ => ?_, fun b node' has' => ?_, rfl, rfl⟩
  · by_cases here : b = a
    · rw [here, Fuse.nodes_modify_self, Option.isSome_map, ← here, has]
      rfl
    · rw [Fuse.nodes_modify_of_ne f here, has]
      rfl
  · obtain ⟨node, has, same⟩ := nodes_modify_eq_some has'
    refine ⟨node, has, ?_⟩
    rw [same]
    split
    · rename_i here
      subst here
      exact ⟨nodeid node, generation node, nlookup node, treelock node,
        fun still => names still node⟩
    · exact ⟨rfl, rfl, rfl, rfl, fun _ => ⟨rfl, rfl⟩⟩

end Changes

/-! ## Lookups -/

section Lookups

variable {f : Fuse} {a nodeid n : Nat} {holds : Nat → Nat} {node : Node}

/-- The node after one more lookup. -/
def lookedUp (node : Node) : Node :=
  { node with
    refctr := if node.nlookup = 0 then node.refctr + 1 else node.refctr
    nlookup := node.nlookup + 1 }

theorem sound_incNlookup (sound : Sound ∅ holds f) : Sound ∅ holds (f.incNlookup a) := by
  change Sound ∅ holds (f.modify a lookedUp)
  refine sound_recount sound (fun _ => rfl) (fun _ => rfl) (fun _ => rfl)
    (fun _ => rfl) (fun node has => ?_) (fun _ _ => rfl) fun node _ _ _ => Nat.succ_pos node.nlookup
  have counted := sound.counts.refs a node has
  change (if node.nlookup = 0 then node.refctr + 1 else node.refctr) =
    (if node.nlookup + 1 = 0 then 0 else 1) + f.children a + holds a
  split <;> rename_i unknown
  · rw [if_pos unknown] at counted
    rw [if_neg (Nat.succ_ne_zero _)]
    omega
  · rw [if_neg unknown] at counted
    rw [if_neg (Nat.succ_ne_zero _)]
    omega

theorem steady_incNlookup (steady : Steady holds f) : Steady holds (f.incNlookup a) := by
  refine ⟨sound_incNlookup steady.sound, fun b node' has' => ?_⟩
  obtain ⟨node, has, same⟩ := nodes_modify_eq_some has'
  have alive := steady.alive b node has
  rw [same]
  split
  · change (if node.nlookup = 0 then node.refctr + 1 else node.refctr) ≠ 0
    split <;> omega
  · exact alive

/-- The node after lookups have been forgotten. -/
def forgotten (n : Nat) (node : Node) : Node := { node with nlookup := node.nlookup - n }

theorem forgetWaits_eq_false (ready : f.forgetWaits nodeid n = false) (apart : nodeid ≠ fuseRootId)
    (found : f.getNode nodeid = some a) (has : f.nodes a = some node) (last : node.nlookup = n) :
    node.treelock = 0 := by
  unfold Fuse.forgetWaits at ready
  rw [decide_eq_false_iff_not, found, Option.bind_some, has] at ready
  by_contra locked
  exact ready ⟨apart, by rw [Option.any_some, decide_eq_true_eq]; exact ⟨last, locked⟩⟩

/-- Lookups that the kernel owes can be forgotten, unless the node is still locked. -/
theorem forgetNode_spec (steady : Steady holds f) (has : f.nodes a = some node)
    (numbered : node.nodeid = nodeid) (apart : nodeid ≠ fuseRootId) (owed : n ≤ node.nlookup)
    (positive : n ≠ 0) (ready : f.forgetWaits nodeid n = false) :
    ∃ f', f.forgetNode nodeid n = some f' ∧ Steady holds f' ∧
      Changed holds ∅ (f.modify a (forgotten n)) f' := by
  have found : f.getNode nodeid = some a :=
    steady.sound.tree.getNode_eq_some_iff.mpr (by rw [Fuse.nodeidOf, has, ← numbered]; rfl)
  have unlocked := forgetWaits_eq_false ready apart found has
  have notRoot : a ≠ rootNode := by
    rintro rfl
    have root := steady.sound.tree.root.1
    rw [Fuse.nodeidOf, has, Option.map_some, numbered] at root
    exact apart (Option.some.inj root)
  have counted := steady.sound.counts.refs a node has
  rw [if_neg (by omega : node.nlookup ≠ 0)] at counted
  have alive : ∀ b node', (f.modify a (forgotten n)).nodes b = some node' → node'.refctr ≠ 0 := by
    intro b node' has'
    obtain ⟨before, had, same⟩ := nodes_modify_eq_some has'
    rw [same]
    split <;> exact steady.alive b before had
  by_cases last : node.nlookup - n = 0
  · have sound : Sound ∅ (oneMore holds a) (f.modify a (forgotten n)) := by
      refine sound_recount steady.sound (fun _ => rfl) (fun _ => rfl) (fun _ => rfl)
        (fun _ => rfl) (fun node' has' => ?_) (fun b away => ?_) fun node' has' stays _ => ?_
      · obtain rfl := Option.some.inj (has.symm.trans has')
        change node.refctr = (if node.nlookup - n = 0 then 0 else 1) + f.children a +
          (holds a + if a = a then 1 else 0)
        rw [if_pos last, if_pos rfl]
        omega
      · rw [oneMore, if_neg away, Nat.add_zero]
      · obtain rfl := Option.some.inj (has.symm.trans has')
        rcases stays with root | locked
        · exact absurd root notRoot
        · exact absurd (unlocked (by omega)) locked
    obtain ⟨f', dropped, steady', changed⟩ := steady_unrefNode sound alive
      (by rw [Fuse.nodeidOf, Fuse.nodes_modify_self, has]; rfl)
    refine ⟨f', ?_, steady', changed⟩
    rw [← dropped]
    simp only [Fuse.forgetNode, apart, found, has, Option.bind_eq_bind, Option.bind_some,
      Nat.not_lt.mpr owed, last, if_false, if_true]
    rfl
  · refine ⟨f.modify a (forgotten n), ?_, ⟨?_, alive⟩, .refl _⟩
    · simp only [Fuse.forgetNode, apart, found, has, Option.bind_eq_bind, Option.bind_some,
        Nat.not_lt.mpr owed, last, if_false]
      rfl
    · refine sound_recount steady.sound (fun _ => rfl) (fun _ => rfl) (fun _ => rfl)
        (fun _ => rfl) (fun node' has' => ?_) (fun _ _ => rfl) fun node' has' _ _ => ?_
      · obtain rfl := Option.some.inj (has.symm.trans has')
        change node.refctr = (if node.nlookup - n = 0 then 0 else 1) + f.children a + holds a
        rw [if_neg last]
        exact counted
      · obtain rfl := Option.some.inj (has.symm.trans has')
        exact Nat.pos_of_ne_zero last

end Lookups

/-! ## Names -/

section Names

variable {f f' : Fuse} {a b parent parentid : Nat} {name : Bytes} {holds : Nat → Nat} {node : Node}
  {allocs : Allocs}

/-- A node that can lose its name: it stays in memory, and its parent does without it. -/
structure Movable (f : Fuse) (a : Nat) : Prop where
  stays : ∃ node, f.nodes a = some node ∧ (node.nlookup ≠ 0 ∨ node.treelock ≠ 0)
  spares : ∀ parent above, f.parentOf a = some parent → f.nodes parent = some above →
    above.nlookup ≠ 0

/-- A node has lost its name, and all nodes are still there. -/
structure Unlinked (holds : Nat → Nat) (a : Nat) (f f' : Fuse) : Prop where
  changed : Changed holds {a} f f'
  all : ∀ b, (f.nodes b).isSome = true → (f'.nodes b).isSome = true
  parents : ∀ b parent, f'.parentOf b = some parent → f.parentOf b = some parent
  names : ∀ b name, f'.nameOf b = some name → f.nameOf b = some name
  named : ∀ b, f'.IsNamed b ↔ f.IsNamed b ∧ b ≠ a ∧ (f'.nodes b).isSome = true
  nameless : ∃ node, f'.nodes a = some node ∧ node.name = none

/-- What holds of a node if it holds of the nodes that are named below it holds of all
nodes. -/
theorem Steady.induction_below {P : Nat → Prop} (steady : Steady holds f)
    (step : ∀ a, (∀ c, f.IsNamed c → f.parentOf c = some a → P c) → P a) (a : Nat) : P a := by
  obtain ⟨rank, lower⟩ := steady.sound.tree.acyclic
  set top := (f.nameTable.content.map rank).sup with highest
  induction height : top - rank a using Nat.strong_induction_on generalizing a with
  | h height ih =>
      subst height
      refine step a fun c member above => ih (top - rank c) ?_ c rfl
      have below := lower c a above
      have bound : rank c ≤ top := Multiset.le_sup (Multiset.mem_map_of_mem rank member)
      omega

/-- Nothing goes with the name of a node if its parent does without it. -/
theorem Pruned.all (pruned : Pruned holds (some a) f f') (steady : Steady holds f)
    (tree : Tree f') (parents : ∀ b parent, f'.parentOf b = some parent →
      f.parentOf b = some parent)
    (spares : ∀ parent above, f.parentOf a = some parent → f.nodes parent = some above →
      above.nlookup ≠ 0) (b : Nat) : (f.nodes b).isSome = true → (f'.nodes b).isSome = true := by
  refine @Steady.induction_below f holds (fun b => (f.nodes b).isSome = true →
    (f'.nodes b).isSome = true) steady (fun b below inMemory => ?_) b
  obtain ⟨node, has⟩ := Option.isSome_iff_exists.mp inMemory
  by_contra gone
  obtain ⟨unknown, -, unheld, alive⟩ :=
    pruned.lost b node has (Option.not_isSome_iff_eq_none.mp gone)
  have counted := steady.sound.counts.refs b node has
  rw [if_pos unknown, unheld] at counted
  obtain ⟨c, member, above⟩ := Multiset.countP_pos.mp
    (show 0 < f.nameTable.content.countP fun c => f.parentOf c = some b by
      change 0 < f.children b
      omega)
  by_cases here : c = a
  · exact spares b node (here ▸ above) has unknown
  · obtain ⟨child, _, _, hasChild, -⟩ := steady.sound.tree.exists_parent member
    have stays := below c member above (by rw [hasChild]; rfl)
    obtain ⟨-, parent, up, inMemory'⟩ := tree.named c ((pruned.named c).mpr
      ⟨member, fun same => here (Option.some.inj same).symm, stays⟩)
    obtain rfl := Option.some.inj (above.symm.trans (parents c parent up))
    obtain ⟨left, hasLeft⟩ := exists_node inMemory'
    exact gone (by rw [hasLeft]; rfl)

theorem Pruned.unlinked (pruned : Pruned holds (some a) f f') (steady : Steady holds f)
    (tree : Tree f') (has : f.nodes a = some node) (stays : node.nlookup ≠ 0 ∨ node.treelock ≠ 0)
    (spares : ∀ parent above, f.parentOf a = some parent → f.nodes parent = some above →
      above.nlookup ≠ 0) : Unlinked holds a f f' := by
  have changed := pruned.changed
  obtain ⟨node', has'⟩ := Option.isSome_iff_exists.mp (changed.kept a node has (stays.imp_right .inl))
  have fields : ∀ b left, f'.nodes b = some left → ∃ first, f.nodes b = some first ∧
      (left.parent = none ∨ left.parent = first.parent) ∧
      (left.name = none ∨ left.name = first.name) := fun b left hasLeft => by
    obtain ⟨first, hasFirst, -, same⟩ := pruned.same b left hasLeft
    refine ⟨first, hasFirst, ?_⟩
    rw [same]
    split
    · exact ⟨.inl rfl, .inl rfl⟩
    · exact ⟨.inr rfl, .inr rfl⟩
  have parents : ∀ b parent, f'.parentOf b = some parent → f.parentOf b = some parent := by
    intro b parent above
    obtain ⟨left, hasLeft, on⟩ := Option.bind_eq_some_iff.mp above
    obtain ⟨first, hasFirst, parents, -⟩ := fields b left hasLeft
    rcases parents with gone | same
    · rw [gone] at on
      cases on
    · rw [parentOf_eq hasFirst, ← same, on]
  refine ⟨changed.mono fun c here => (Option.some.inj here).symm,
    pruned.all steady tree parents spares, parents, fun b name called => ?_, fun b => ?_, node',
    has', ?_⟩
  · obtain ⟨left, hasLeft, on⟩ := Option.bind_eq_some_iff.mp called
    obtain ⟨first, hasFirst, -, names⟩ := fields b left hasLeft
    rcases names with gone | same
    · rw [gone] at on
      cases on
    · rw [Fuse.nameOf, hasFirst, Option.bind_some, ← same, on]
  · rw [pruned.named, Ne, Option.some.injEq, eq_comm]
  · obtain ⟨_, -, -, same⟩ := pruned.same a node' has'
    rw [same, if_pos rfl]
    rfl

theorem notRoot_of_named (sound : Sound ∅ holds f) (member : f.IsNamed a) : a ≠ rootNode := by
  rintro rfl
  exact sound.tree.root.2.2 member

theorem unhashName_steady (steady : Steady holds f) (notRoot : a ≠ rootNode)
    (movable : Movable f a) :
    ∃ f', f.unhashName a = some f' ∧ Steady holds f' ∧ Unlinked holds a f f' := by
  obtain ⟨node, has, stays⟩ := movable.stays
  obtain ⟨f', unhashed, sound, pruned⟩ := unhashName_spec steady.sound has notRoot
    (fun unknown unlocked => absurd stays (by rw [unknown, unlocked]; simp))
    fun _ parent above on hasAbove => Nat.pos_of_ne_zero
      (movable.spares parent above (by rw [parentOf_eq has, on]) hasAbove)
  exact ⟨f', unhashed, ⟨sound, pruned.alive steady.alive⟩,
    pruned.unlinked steady sound.tree has stays movable.spares⟩

theorem Movable.after (movable : Movable f a) (unlinked : Unlinked holds b f f') : Movable f' a := by
  obtain ⟨node, has, stays⟩ := movable.stays
  obtain ⟨node', has'⟩ := Option.isSome_iff_exists.mp (unlinked.changed.kept a node has (stays.imp_right .inl))
  obtain ⟨before, had, -, -, nlookup, treelock, -⟩ := unlinked.changed.back a node' has'
  obtain rfl := Option.some.inj (has.symm.trans had)
  refine ⟨⟨node', has', by rwa [nlookup, treelock]⟩, fun parent above on hasAbove => ?_⟩
  obtain ⟨first, hasFirst, -, -, nlookup, -⟩ := unlinked.changed.back parent above hasAbove
  rw [nlookup]
  exact movable.spares parent first (unlinked.parents a parent on) hasFirst

/-- Naming a node without a name succeeds, unless the memory for the name is short. -/
theorem hashName_spec (sound : Sound ∅ holds f) (has : f.nodes a = some node)
    (nameless : node.name = none) (inMemory : f.nodeidOf parent = some parentid) :
    ∃ hashed : Bool, f.hashName allocs a parentid name =
        some (hashed, if hashed then giveName f allocs.table a parent name else f) ∧
      (hashed = false ↔ allocs.Short name) := by
  have found := sound.tree.getNode_eq_some_iff.mpr inMemory
  unfold Fuse.hashName
  rw [found]
  by_cases short : inlineNameSize ≤ name.length ∧ allocs.name = false
  · refine ⟨false, ?_, fun _ => short, fun _ => rfl⟩
    simp only [Option.bind_eq_bind, Option.bind_some, if_pos short]
    have same : (f.nodes a).map (fun node => { node with name := none }) = f.nodes a := by
      rw [has, Option.map_some, ← nameless]
    rw [Fuse.modify, same, Function.update_eq_self]
    rfl
  · refine ⟨true, ?_, (fun wrong => by cases wrong), fun wrong => absurd wrong short⟩
    simp only [Option.bind_eq_bind, Option.bind_some, if_neg short]
    rfl

theorem changed_giveName (granted : Bool) : Changed holds {a} f (giveName f granted a parent name) := by
  have same : ∀ b node, (relabelled a parent name b node).nodeid = node.nodeid ∧
      (relabelled a parent name b node).generation = node.generation := fun b node => by
    unfold relabelled
    split <;> split <;> exact ⟨rfl, rfl⟩
  refine ⟨fun b node has _ => ?_, fun b node' has' => ?_, rfl, rfl⟩
  · rw [show (giveName f granted a parent name).nodes b = _ from nodes_labelled b, has]
    rfl
  · obtain ⟨node, has, rfl⟩ := Option.map_eq_some_iff.mp ((nodes_labelled b).symm.trans has')
    exact ⟨node, has, (same b node).1, (same b node).2, relabelled_counters.1,
      relabelled_counters.2.1, relabelled_names⟩

theorem steady_giveName (steady : Steady holds f) (nameable : Nameable f a parent name)
    (granted : Bool) : Steady holds (giveName f granted a parent name) := by
  refine ⟨sound_giveName steady.sound nameable granted, fun b node' has' => ?_⟩
  obtain ⟨node, has, rfl⟩ := Option.map_eq_some_iff.mp ((nodes_labelled b).symm.trans has')
  have alive := steady.alive b node has
  rw [relabelled_counters.2.2]
  omega

/-! ### What is found afterwards -/

theorem Changed.nodeidOf {moved : Set Nat} (changed : Changed holds moved f f') {nodeid : Nat}
    (numbered : f'.nodeidOf b = some nodeid) : f.nodeidOf b = some nodeid := by
  obtain ⟨node', has', rfl⟩ := Option.map_eq_some_iff.mp numbered
  obtain ⟨node, has, same, -⟩ := changed.back b node' has'
  rw [Fuse.nodeidOf, has, same]
  rfl

theorem Unlinked.lookupNode (unlinked : Unlinked holds a f f') (tree : Tree f) (tree' : Tree f')
    {dir : Nat} (found : f'.lookupNode dir name = some b) :
    f.lookupNode dir name = some b ∧ b ≠ a := by
  obtain ⟨member, parent, above, numbered, called⟩ := tree'.lookupNode_eq_some_iff.mp found
  obtain ⟨old, apart, -⟩ := (unlinked.named b).mp member
  exact ⟨tree.lookupNode_eq_some_iff.mpr ⟨old, parent, unlinked.parents b parent above,
    unlinked.changed.nodeidOf numbered, unlinked.names b name called⟩, apart⟩

/-- The node behind every number of a directory and name. -/
def Fuse.names (f : Fuse) (key : Nat × Bytes) : Option Nat := f.lookupNode key.1 key.2

theorem names_injective (tree : Tree f) {key key' : Nat × Bytes} (found : f.names key = some b)
    (again : f.names key' = some b) : key = key' := by
  obtain ⟨-, parent, above, numbered, called⟩ := tree.lookupNode_eq_some_iff.mp found
  obtain ⟨-, parent', above', numbered', called'⟩ := tree.lookupNode_eq_some_iff.mp again
  obtain rfl := Option.some.inj (above.symm.trans above')
  exact Prod.ext (Option.some.inj (numbered.symm.trans numbered'))
    (Option.some.inj (called.symm.trans called'))

/-- Taking a name away takes only this name away. -/
theorem Unlinked.names_eq (unlinked : Unlinked holds a f f') (tree : Tree f) (tree' : Tree f')
    (key : Nat × Bytes) : f'.names key = if f.names key = some a then none else f.names key := by
  refine Option.ext fun b => ⟨fun again => ?_, fun before => ?_⟩
  · obtain ⟨before, other⟩ := unlinked.lookupNode tree tree' again
    have first : f.names key = some b := before
    rw [first, if_neg fun same => other (Option.some.inj same)]
  · split at before
    · cases before
    · rename_i apart
      have other : b ≠ a := fun same => apart (same ▸ before)
      obtain ⟨member, parent, above, numbered, called⟩ := tree.lookupNode_eq_some_iff.mp before
      obtain ⟨node, up, upper, has, on, hasUpper⟩ := tree.exists_parent member
      obtain ⟨node', has'⟩ := Option.isSome_iff_exists.mp (unlinked.all b (by rw [has]; rfl))
      obtain ⟨first, had, -, -, -, -, same⟩ := unlinked.changed.back b node' has'
      obtain rfl := Option.some.inj (has.symm.trans had)
      obtain ⟨sameParent, sameName⟩ := same other
      obtain rfl : parent = up := Option.some.inj (above.symm.trans ((parentOf_eq has).trans on))
      obtain ⟨upper', hasUpper'⟩ := Option.isSome_iff_exists.mp
        (unlinked.all parent (by rw [hasUpper]; rfl))
      obtain ⟨first, hadUpper, number, -⟩ := unlinked.changed.back parent upper' hasUpper'
      obtain rfl := Option.some.inj (hasUpper.symm.trans hadUpper)
      refine tree'.lookupNode_eq_some_iff.mpr ⟨(unlinked.named b).mpr
        ⟨member, other, by rw [has']; rfl⟩, parent, ?_, ?_, ?_⟩
      · rw [parentOf_eq has', sameParent, on]
      · rw [← numbered, Fuse.nodeidOf, Fuse.nodeidOf, hasUpper, hasUpper']
        exact congrArg some number
      · rw [← called, Fuse.nameOf, Fuse.nameOf, has, has']
        exact sameName

theorem lookupNode_giveName (tree : Tree f) (nameable : Nameable f a parent name) (granted : Bool)
    (inMemory : f.nodeidOf parent = some parentid) :
    (giveName f granted a parent name).lookupNode parentid name = some a := by
  obtain ⟨node, has, -⟩ := nameable.nameless
  obtain ⟨above, called⟩ := @labelled_self f a parent name node has
  refine (nameable.tree tree granted).lookupNode_eq_some_iff.mpr
    ⟨(nameable.isNamed_iff tree granted a).mpr (.inl rfl), parent, above, ?_, called⟩
  rw [← inMemory]
  exact congrFun nodeidOf_labelled parent

theorem of_lookupNode_giveName (tree : Tree f) (nameable : Nameable f a parent name) (granted : Bool)
    (inMemory : f.nodeidOf parent = some parentid) {dir : Nat} {other : Bytes}
    (found : (giveName f granted a parent name).lookupNode dir other = some b) :
    f.lookupNode dir other = some b ∧ b ≠ a ∨ dir = parentid ∧ other = name ∧ b = a := by
  obtain ⟨node, has, -⟩ := nameable.nameless
  obtain ⟨above, called⟩ := @labelled_self f a parent name node has
  obtain ⟨member, up, on, numbered, named⟩ :=
    (nameable.tree tree granted).lookupNode_eq_some_iff.mp found
  change (labelled f a parent name).parentOf b = some up at on
  change (labelled f a parent name).nodeidOf up = some dir at numbered
  change (labelled f a parent name).nameOf b = some other at named
  rw [nodeidOf_labelled] at numbered
  by_cases here : b = a
  · rw [here, above] at on
    rw [here, called] at named
    obtain rfl := Option.some.inj on
    exact .inr ⟨Option.some.inj (numbered.symm.trans inMemory), (Option.some.inj named).symm, here⟩
  · rw [parentOf_labelled here] at on
    rw [nameOf_labelled here] at named
    have old := ((nameable.isNamed_iff tree granted b).mp member).resolve_left here
    exact .inl ⟨tree.lookupNode_eq_some_iff.mpr ⟨old, up, on, numbered, named⟩, here⟩

theorem Unlinked.below (unlinked : Unlinked holds a f f') {c : Nat} (below : f'.Below b c) : f.Below b c :=
  Relation.TransGen.mono unlinked.parents b c below

/-- What is below another node after a node has got a name was so before, or it is below
that node. -/
theorem below_giveName (granted : Bool) {c : Nat}
    (below : (giveName f granted a parent name).Below b c) :
    f.Below b c ∨ b = a ∨ f.Below b a := by
  have step : ∀ x y, (giveName f granted a parent name).parentOf x = some y → x ≠ a →
      f.parentOf x = some y := fun x y above other => by
    rw [← above]
    exact (parentOf_labelled other).symm
  induction below with
  | @single y above =>
      by_cases here : b = a
      · exact .inr (.inl here)
      · exact .inl (.single (step b y above here))
  | @tail x y _ above ih =>
      rcases ih with before | same | under
      · by_cases here : x = a
        · exact .inr (.inr (here ▸ before))
        · exact .inl (before.tail (step x y above here))
      · exact .inr (.inl same)
      · exact .inr (.inr under)

theorem Unlinked.nameable (unlinked : Unlinked holds a f f') (notRoot : a ≠ rootNode)
    (inMemory : (f'.nodeidOf parent).isSome = true) (away : parent ≠ a)
    (notBelow : ¬ f.Below parent a)
    (free : ∀ b, f'.IsNamed b → f'.parentOf b = some parent → f'.nameOf b ≠ some name) :
    Nameable f' a parent name :=
  ⟨unlinked.nameless, notRoot, inMemory, away, fun below => notBelow (unlinked.below below), free⟩

/-- A name that nobody finds is free. -/
theorem free_of_lookupNode (tree : Tree f) (inMemory : f.nodeidOf parent = some parentid)
    (absent : f.lookupNode parentid name = none) (member : f.IsNamed b)
    (on : f.parentOf b = some parent) : f.nameOf b ≠ some name :=
  tree.lookupNode_eq_none_iff.mp absent b member parent on inMemory

/-- A node that has been looked up stays where it is in memory. -/
theorem Changed.nodeidOf_eq {moved : Set Nat} (changed : Changed holds moved f f')
    (numbered : f.nodeidOf b = some parentid)
    (known : ∀ node, f.nodes b = some node → node.nlookup ≠ 0) :
    f'.nodeidOf b = some parentid ∧ ∀ node, f'.nodes b = some node → node.nlookup ≠ 0 := by
  obtain ⟨node, has, rfl⟩ := Option.map_eq_some_iff.mp numbered
  obtain ⟨node', has'⟩ := Option.isSome_iff_exists.mp (changed.kept b node has (.inl (known node has)))
  obtain ⟨before, had, nodeid, -, nlookup, -⟩ := changed.back b node' has'
  obtain rfl := Option.some.inj (has.symm.trans had)
  refine ⟨by rw [Fuse.nodeidOf, has', Option.map_some, nodeid], fun left hasLeft => ?_⟩
  obtain rfl := Option.some.inj (has'.symm.trans hasLeft)
  rw [nlookup]
  exact known node has

end Names

end Libfuse

end NosqlFS
