import NosqlFS.Libfuse.References
import NosqlFS.Libfuse.Numbers

/-!
# Names come and go

What the operations on the node table do to it: a node gets a name below another one, is
looked up once more, is forgotten, renamed or removed.  Each keeps the table sound and
gives every other node its name back unchanged.
-/

namespace NosqlFS

namespace Libfuse

open LinearHash LinearHash.Table Text

/-- The node table between two operations. -/
structure Steady (holds : Nat → Nat) (f : Fuse) : Prop where
  sound : Sound ∅ holds f
  alive : ∀ a node, f.nodes a = some node → node.refctr ≠ 0

/-! ## Giving a name -/

section Link

variable {f : Fuse} {a parent parentid : Nat} {name : Bytes} {holds : Nat → Nat} {node : Node}

/-- The node with a parent and a name. -/
def Node.named (parent : Nat) (name : Bytes) (node : Node) : Node :=
  { node with parent := some parent, name := some name }

/-- The node has a reference more. -/
def addOne (node : Node) : Node := { node with refctr := node.refctr + 1 }

/-- The state after a node has got a parent and a name. -/
def labelled (f : Fuse) (a parent : Nat) (name : Bytes) : Fuse :=
  (f.modify parent addOne).modify a (Node.named parent name)

/-- The state after a node has got a parent and a name and is in the table of names. -/
def giveName (f : Fuse) (granted : Bool) (a parent : Nat) (name : Bytes) : Fuse :=
  { labelled f a parent name with
    nameTable := f.nameTable.insert (labelled f a parent name).nameHashOf granted a }

/-- The node can be named so: it has no name, it is not above its parent, and no other
node has the name there. -/
structure Nameable (f : Fuse) (a parent : Nat) (name : Bytes) : Prop where
  nameless : ∃ node, f.nodes a = some node ∧ node.name = none
  notRoot : a ≠ rootNode
  inMemory : (f.nodeidOf parent).isSome = true
  away : parent ≠ a
  notBelow : ¬ f.Below parent a
  free : ∀ b, f.IsNamed b → f.parentOf b = some parent → f.nameOf b ≠ some name

/-- A node that has been given a name is in the table of names. -/
theorem Tree.inserted (tree : Tree f) (granted : Bool) (unnamed : ¬ f.IsNamed a)
    (apart : a ≠ rootNode) (above : f.parentOf a = some parent)
    (inMemory : (f.nodeidOf parent).isSome = true) (called : f.nameOf a = some name)
    (free : ∀ b, f.IsNamed b → f.parentOf b = some parent → f.nameOf b ≠ some name) :
    Tree { f with nameTable := f.nameTable.insert f.nameHashOf granted a } := by
  have joined := joined_insert tree.nameWf granted a
  have member : ∀ b, Fuse.IsNamed
      { f with nameTable := f.nameTable.insert f.nameHashOf granted a } b ↔ b = a ∨ f.IsNamed b :=
    fun b => by
      rw [Fuse.IsNamed, show (Fuse.nameTable _).content = _ from joined.content,
        Multiset.mem_cons, Fuse.IsNamed]
  exact {
    idWf := tree.idWf
    idContent := tree.idContent
    idDistinct := tree.idDistinct
    idUse := tree.idUse
    nameWf := joined.wf
    nameDistinct := by
      rw [show (Fuse.nameTable _).content = _ from joined.content, Multiset.nodup_cons]
      exact ⟨unnamed, tree.nameDistinct⟩
    named := fun b isNamed => by
      rcases (member b).mp isNamed with rfl | old
      · exact ⟨show (f.nameOf b).isSome = true by rw [called]; rfl, parent, above, inMemory⟩
      · exact tree.named b old
    nameSingle := fun b c first second sameParent sameName => by
      change f.parentOf b = f.parentOf c at sameParent
      change f.nameOf b = f.nameOf c at sameName
      rcases (member b).mp first with rfl | oldFirst <;>
        rcases (member c).mp second with rfl | oldSecond
      · rfl
      · exact absurd (sameName.symm.trans called)
          (free c oldSecond (sameParent.symm.trans above))
      · exact absurd (sameName.trans called) (free b oldFirst (sameParent.trans above))
      · exact tree.nameSingle b c oldFirst oldSecond sameParent sameName
    acyclic := tree.acyclic
    idSingle := tree.idSingle
    idRange := tree.idRange
    root := ⟨tree.root.1, tree.root.2.1, fun isNamed =>
      ((member rootNode).mp isNamed).elim apart.symm tree.root.2.2⟩
    fresh := tree.fresh }

/-- The nodes below one that gets a parent are ranked below the parent. -/
theorem acyclic_named (tree : Tree f) (change : Node → Node)
    (under : ∀ node, (change node).parent = some parent) (away : parent ≠ a)
    (notBelow : ¬ f.Below parent a) :
    ∃ rank : Nat → Nat, ∀ b c, (f.modify a change).parentOf b = some c → rank c < rank b := by
  classical
  obtain ⟨rank, lower⟩ := tree.acyclic
  refine ⟨fun b => if b = a ∨ f.Below b a then rank b + rank parent + 1 else rank b, ?_⟩
  intro b c above
  have still : ¬ (parent = a ∨ f.Below parent a) := not_or.mpr ⟨away, notBelow⟩
  by_cases here : b = a
  · subst here
    obtain ⟨node, has, on⟩ := Option.bind_eq_some_iff.mp above
    obtain ⟨_, _, changed⟩ := nodes_modify_eq_some has
    rw [changed, if_pos rfl, under] at on
    obtain rfl := Option.some.inj on
    simp only [if_neg still, true_or, if_true]
    omega
  · rw [Fuse.parentOf, Fuse.nodes_modify_of_ne f here] at above
    have ranked := lower b c above
    by_cases moved : c = a ∨ f.Below c a
    · have movedBelow : f.Below b a := by
        rcases moved with rfl | below
        · exact .single above
        · exact .head above below
      simp only [if_pos moved, if_pos (Or.inr movedBelow : b = a ∨ f.Below b a)]
      omega
    · simp only [if_neg moved]
      split <;> omega

theorem nodeidOf_labelled : (labelled f a parent name).nodeidOf = f.nodeidOf := by
  funext b
  exact (@Fuse.field_modify _ a (Node.named parent name) _ Node.nodeid (fun _ => rfl) b).trans
    (@Fuse.field_modify f parent addOne _ Node.nodeid (fun _ => rfl) b)

/-- What a node is after another one has got its name. -/
def relabelled (a parent : Nat) (name : Bytes) (b : Nat) (node : Node) : Node :=
  if b = a then (if b = parent then addOne node else node).named parent name
  else if b = parent then addOne node else node

theorem relabelled_counters {b : Nat} : (relabelled a parent name b node).nlookup = node.nlookup ∧
    (relabelled a parent name b node).treelock = node.treelock ∧
    (relabelled a parent name b node).refctr = node.refctr + if b = parent then 1 else 0 := by
  unfold relabelled
  split <;> split <;> exact ⟨rfl, rfl, rfl⟩

theorem relabelled_names {b : Nat} (other : b ≠ a) :
    (relabelled a parent name b node).parent = node.parent ∧
      (relabelled a parent name b node).name = node.name := by
  rw [relabelled, if_neg other]
  split <;> exact ⟨rfl, rfl⟩

theorem nodes_labelled (b : Nat) : (labelled f a parent name).nodes b =
    (f.nodes b).map (relabelled a parent name b) := by
  have counted : (f.modify parent addOne).nodes b =
      (f.nodes b).map fun node => if b = parent then addOne node else node := by
    by_cases there : b = parent
    · subst there
      simp only [Fuse.nodes_modify_self, if_true]
    · rw [Fuse.nodes_modify_of_ne f there]
      simp only [there, if_false, Option.map_id_fun', id]
  unfold labelled relabelled
  by_cases here : b = a
  · subst here
    rw [Fuse.nodes_modify_self, counted, Option.map_map]
    simp only [if_true]
    rfl
  · rw [Fuse.nodes_modify_of_ne _ here, counted]
    simp only [here, if_false]

theorem parentOf_labelled {b : Nat} (other : b ≠ a) :
    (labelled f a parent name).parentOf b = f.parentOf b := by
  rw [Fuse.parentOf, nodes_labelled, Fuse.parentOf, Option.bind_map]
  refine congrArg (Option.bind _) (funext fun node => ?_)
  rw [Function.comp, relabelled, if_neg other]
  split <;> rfl

theorem nameOf_labelled {b : Nat} (other : b ≠ a) :
    (labelled f a parent name).nameOf b = f.nameOf b := by
  rw [Fuse.nameOf, nodes_labelled, Fuse.nameOf, Option.bind_map]
  refine congrArg (Option.bind _) (funext fun node => ?_)
  rw [Function.comp, relabelled, if_neg other]
  split <;> rfl

theorem labelled_self (has : f.nodes a = some node) :
    (labelled f a parent name).parentOf a = some parent ∧
      (labelled f a parent name).nameOf a = some name := by
  rw [Fuse.parentOf, Fuse.nameOf, nodes_labelled, has, Option.map_some, relabelled, if_pos rfl]
  exact ⟨rfl, rfl⟩

theorem Nameable.unnamed (nameable : Nameable f a parent name) (tree : Tree f) : ¬ f.IsNamed a := by
  obtain ⟨node, has, nameless⟩ := nameable.nameless
  intro member
  have called := (tree.named a member).1
  rw [Fuse.nameOf, has, Option.bind_some, nameless] at called
  cases called

theorem Nameable.distinct (nameable : Nameable f a parent name) (tree : Tree f) {b : Nat}
    (member : f.IsNamed b) : b ≠ a := fun here => nameable.unnamed tree (here ▸ member)

theorem Nameable.tree_labelled (nameable : Nameable f a parent name) (tree : Tree f) :
    Tree (labelled f a parent name) := by
  have same : Fuse.SameNames f (f.modify parent addOne) :=
    Fuse.sameNames_modify f parent (fun _ => rfl) (fun _ => rfl) (fun _ => rfl)
  have counted : Tree (f.modify parent addOne) := tree.congr same rfl rfl rfl
  have below : (f.modify parent addOne).Below = f.Below := by
    rw [Fuse.Below, (funext same.parent : (f.modify parent addOne).parentOf = f.parentOf),
      Fuse.Below]
  exact counted.relabel (nameable.unnamed tree) nameable.notRoot (fun _ => rfl)
    (acyclic_named counted _ (fun _ => rfl) nameable.away
      (by rw [below]; exact nameable.notBelow))

theorem Nameable.joined (nameable : Nameable f a parent name) (tree : Tree f) (granted : Bool) :
    Joined nodeTableMinSize (labelled f a parent name).nameHashOf f.nameTable a
      (giveName f granted a parent name).nameTable :=
  joined_insert (nameable.tree_labelled tree).nameWf granted a

theorem Nameable.isNamed_iff (nameable : Nameable f a parent name) (tree : Tree f)
    (granted : Bool) (b : Nat) :
    (giveName f granted a parent name).IsNamed b ↔ b = a ∨ f.IsNamed b := by
  rw [Fuse.IsNamed, (nameable.joined tree granted).content, Multiset.mem_cons, Fuse.IsNamed]

theorem Nameable.tree (nameable : Nameable f a parent name) (tree : Tree f) (granted : Bool) :
    Tree (giveName f granted a parent name) := by
  obtain ⟨node, has, -⟩ := nameable.nameless
  obtain ⟨above, called⟩ := @labelled_self f a parent name node has
  refine (nameable.tree_labelled tree).inserted granted (nameable.unnamed tree) nameable.notRoot
    above ?_ called fun b member on => ?_
  · rw [nodeidOf_labelled]
    exact nameable.inMemory
  · have other := nameable.distinct tree member
    rw [parentOf_labelled other] at on
    rw [nameOf_labelled other]
    exact nameable.free b member on

theorem Nameable.children (nameable : Nameable f a parent name) (tree : Tree f) (granted : Bool)
    (b : Nat) : (giveName f granted a parent name).children b =
      f.children b + if b = parent then 1 else 0 := by
  obtain ⟨node, has, -⟩ := nameable.nameless
  have old : (labelled f a parent name).children b = f.children b :=
    @children_congr f (labelled f a parent name) rfl
      (fun c member => parentOf_labelled (nameable.distinct tree member)) b
  rw [← old]
  unfold Fuse.children
  rw [(nameable.joined tree granted).content, Multiset.countP_cons,
    show (giveName f granted a parent name).parentOf a = some parent from (labelled_self has).1]
  congr 1
  simp only [Option.some.injEq, eq_comm]

/-- A new name counts for the parent and keeps the table sound. -/
theorem sound_giveName (sound : Sound ∅ holds f) (nameable : Nameable f a parent name)
    (granted : Bool) : Sound ∅ holds (giveName f granted a parent name) := by
  have named := nameable.isNamed_iff sound.tree granted
  have back : ∀ b node', (giveName f granted a parent name).nodes b = some node' → ∃ node,
      f.nodes b = some node ∧ relabelled a parent name b node = node' := fun b node' has' =>
    Option.map_eq_some_iff.mp ((nodes_labelled b).symm.trans has')
  refine ⟨nameable.tree sound.tree granted, ⟨?_, ?_⟩, ?_, ?_⟩
  · intro b node' has'
    obtain ⟨node, has, rfl⟩ := back b node' has'
    obtain ⟨nlookup, -, refctr⟩ := @relabelled_counters a parent name node b
    rw [nameable.children sound.tree, nlookup, refctr, sound.counts.refs b node has]
    omega
  · intro node' has'
    obtain ⟨node, has, rfl⟩ := back rootNode node' has'
    rw [relabelled_counters.1]
    exact sound.counts.rootKnown node has
  · refine sound.keeps.congr (fun b node' has' => ?_) fun b below has locked member => ?_
    · obtain ⟨node, has, rfl⟩ := back b node' has'
      exact ⟨node, has, relabelled_counters.1, relabelled_counters.2.1⟩
    · refine ⟨relabelled a parent name b below, ?_, ?_, (named b).mpr (.inr member), ?_⟩
      · exact (nodes_labelled b).trans (by rw [has]; rfl)
      · rwa [relabelled_counters.2.1]
      · exact (relabelled_names (nameable.distinct sound.tree member)).1
  · refine ⟨fun b node' has' _ aside called => ?_, fun b node' has' none => ?_, ?_⟩
    · obtain ⟨node, has, rfl⟩ := back b node' has'
      refine (named b).mpr (or_iff_not_imp_left.mpr fun other => ?_)
      rw [(relabelled_names other).2] at called
      exact sound.settled.named b node has (Set.notMem_empty b) aside called
    · obtain ⟨node, has, rfl⟩ := back b node' has'
      by_cases here : b = a
      · rw [relabelled, if_pos here] at none
        cases none
      · rw [(relabelled_names here).2] at none
        rw [(relabelled_names here).1]
        exact sound.settled.nameless b node has none
    · have joined := nameable.joined sound.tree granted
      rw [joined.content, joined.use, Multiset.card_cons]
      exact Nat.succ_le_succ sound.settled.uses

end Link

/-! ## A new node -/

section Register

variable {f : Fuse} {nodeid generation : Nat} {holds : Nat → Nat}

/-- A node that is not named and not looked up. -/
def newNode (nodeid generation : Nat) : Node := ⟨nodeid, generation, 0, none, none, 0, 0, false, 0⟩

/-- The state with a new node. -/
def withNode (f : Fuse) (nodeid generation : Nat) : Fuse :=
  { f with
    brk := f.brk + 1
    ctr := nodeid
    generation := generation
    nodes := Function.update f.nodes f.brk (some (newNode nodeid generation)) }

/-- The state with a new node, also in the table of numbers. -/
def register (f : Fuse) (granted : Bool) (nodeid generation : Nat) : Fuse :=
  { withNode f nodeid generation with
    idTable := f.idTable.insert (withNode f nodeid generation).idHashOf granted f.brk }

theorem nodes_withNode_of_ne {b : Nat} (old : b ≠ f.brk) :
    (withNode f nodeid generation).nodes b = f.nodes b := Function.update_of_ne old ..

theorem nodes_withNode_self :
    (withNode f nodeid generation).nodes f.brk = some (newNode nodeid generation) :=
  Function.update_self ..

theorem Tree.nodes_brk (tree : Tree f) : f.nodes f.brk = none := by
  rw [Option.eq_none_iff_forall_ne_some]
  intro node has
  exact absurd (tree.fresh f.brk (nodeidOf_isSome has)) (Nat.lt_irrefl _)

theorem Tree.parentOf_withNode (tree : Tree f) :
    (withNode f nodeid generation).parentOf = f.parentOf := by
  funext b
  by_cases here : b = f.brk
  · rw [here, parentOf_eq nodes_withNode_self, Fuse.parentOf, tree.nodes_brk]
    rfl
  · rw [Fuse.parentOf, nodes_withNode_of_ne here, Fuse.parentOf]

theorem Tree.nameOf_withNode (tree : Tree f) :
    (withNode f nodeid generation).nameOf = f.nameOf := by
  funext b
  by_cases here : b = f.brk
  · rw [here, Fuse.nameOf, nodes_withNode_self, Fuse.nameOf, tree.nodes_brk]
    rfl
  · rw [Fuse.nameOf, nodes_withNode_of_ne here, Fuse.nameOf]

theorem nodeidOf_withNode_of_ne {b : Nat} (old : b ≠ f.brk) :
    (withNode f nodeid generation).nodeidOf b = f.nodeidOf b := by
  rw [Fuse.nodeidOf, nodes_withNode_of_ne old, Fuse.nodeidOf]

theorem Tree.ne_brk (tree : Tree f) {b : Nat} (has : (f.nodeidOf b).isSome = true) : b ≠ f.brk :=
  fun here => absurd (tree.fresh b has) (here ▸ Nat.lt_irrefl _)

theorem Tree.registered (tree : Tree f) (granted : Bool) (positive : 0 < nodeid)
    (known : nodeid < fuseUnknownIno) (unused : ∀ b, f.nodeidOf b ≠ some nodeid) :
    Tree (register f granted nodeid generation) := by
  set n := withNode f nodeid generation with added
  have self : n.nodes f.brk = some (newNode nodeid generation) := nodes_withNode_self
  have numbers : ∀ b, b ≠ f.brk → n.nodeidOf b = f.nodeidOf b := fun b =>
    nodeidOf_withNode_of_ne
  have parents : ∀ b, n.parentOf b = f.parentOf b := congrFun tree.parentOf_withNode
  have names : ∀ b, n.nameOf b = f.nameOf b := congrFun tree.nameOf_withNode
  have number : n.nodeidOf f.brk = some nodeid := by rw [Fuse.nodeidOf, self]; rfl
  have old : ∀ b, (f.nodeidOf b).isSome = true → b ≠ f.brk := fun b => tree.ne_brk
  have wf : f.idTable.Wf nodeTableMinSize n.idHashOf := tree.idWf.congr fun b member => by
    rw [Fuse.idHashOf, numbers b (old b ((tree.idContent b).mp member)), Fuse.idHashOf]
  have joined := joined_insert wf granted f.brk
  have absent : f.brk ∉ f.idTable.content := fun member =>
    old f.brk ((tree.idContent f.brk).mp member) rfl
  have either : ∀ b number', n.nodeidOf b = some number' →
      b = f.brk ∧ number' = nodeid ∨ b ≠ f.brk ∧ f.nodeidOf b = some number' := by
    intro b number' has
    by_cases here : b = f.brk
    · rw [here, number] at has
      exact .inl ⟨here, (Option.some.inj has).symm⟩
    · rw [numbers b here] at has
      exact .inr ⟨here, has⟩
  exact {
    idWf := joined.wf
    idContent := fun b => by
      change b ∈ (f.idTable.insert n.idHashOf granted f.brk).content ↔ (n.nodeidOf b).isSome = true
      rw [joined.content, Multiset.mem_cons]
      by_cases here : b = f.brk
      · rw [here, number]
        exact iff_of_true (.inl rfl) rfl
      · rw [numbers b here, ← tree.idContent]
        exact ⟨fun either => either.resolve_left here, .inr⟩
    idDistinct := by
      change (f.idTable.insert n.idHashOf granted f.brk).content.Nodup
      rw [joined.content, Multiset.nodup_cons]
      exact ⟨absent, tree.idDistinct⟩
    idUse := by
      change (f.idTable.insert n.idHashOf granted f.brk).use =
        Multiset.card (f.idTable.insert n.idHashOf granted f.brk).content
      rw [joined.content, joined.use, Multiset.card_cons, tree.idUse]
    nameWf := tree.nameWf.congr fun b member => by
      obtain ⟨_, parent, above, has⟩ := tree.named b member
      change n.nameHashOf b = f.nameHashOf b
      rw [Fuse.nameHashOf, Fuse.nameHashOf, parents, names, above, Option.bind_some,
        Option.bind_some, numbers parent (old parent has)]
    nameDistinct := tree.nameDistinct
    named := fun b member => by
      obtain ⟨called, parent, above, has⟩ := tree.named b member
      change (n.nameOf b).isSome = true ∧ ∃ parent, n.parentOf b = some parent ∧
        (n.nodeidOf parent).isSome = true
      rw [names, parents]
      exact ⟨called, parent, above, by rwa [numbers parent (old parent has)]⟩
    nameSingle := fun b c first second sameParent sameName => by
      change n.parentOf b = n.parentOf c at sameParent
      change n.nameOf b = n.nameOf c at sameName
      rw [parents, parents] at sameParent
      rw [names, names] at sameName
      exact tree.nameSingle b c first second sameParent sameName
    acyclic := by
      obtain ⟨rank, lower⟩ := tree.acyclic
      refine ⟨rank, fun b parent above => lower b parent ?_⟩
      change n.parentOf b = some parent at above
      rwa [parents] at above
    idSingle := fun b c number' first second => by
      rcases either b number' first with ⟨atB, isNew⟩ | ⟨-, hasB⟩ <;>
        rcases either c number' second with ⟨atC, isNew'⟩ | ⟨-, hasC⟩
      · rw [atB, atC]
      · exact absurd (isNew ▸ hasC) (unused c)
      · exact absurd (isNew' ▸ hasB) (unused b)
      · exact tree.idSingle b c number' hasB hasC
    idRange := fun b number' has => by
      rcases either b number' has with ⟨-, rfl⟩ | ⟨-, hasB⟩
      · exact ⟨positive, known⟩
      · exact tree.idRange b number' hasB
    root := by
      have rootOld : rootNode ≠ f.brk := old rootNode (by rw [tree.root.1]; rfl)
      change n.nodeidOf rootNode = some fuseRootId ∧ n.parentOf rootNode = none ∧ _
      rw [numbers rootNode rootOld, parents]
      exact tree.root
    fresh := fun b has => by
      obtain ⟨number', has⟩ := Option.isSome_iff_exists.mp has
      change b < f.brk + 1
      rcases either b number' has with ⟨rfl, -⟩ | ⟨-, hasB⟩
      · exact Nat.lt_succ_self _
      · exact Nat.lt_succ_of_lt (tree.fresh b (by rw [hasB]; rfl)) }

theorem sound_register (sound : Sound ∅ holds f) (granted : Bool) (unheld : holds f.brk = 0)
    (positive : 0 < nodeid) (known : nodeid < fuseUnknownIno)
    (unused : ∀ b, f.nodeidOf b ≠ some nodeid) :
    Sound ∅ holds (register f granted nodeid generation) := by
  set g := register f granted nodeid generation with added
  have self : g.nodes f.brk = some (newNode nodeid generation) := nodes_withNode_self
  have others : ∀ b, b ≠ f.brk → g.nodes b = f.nodes b := fun b => nodes_withNode_of_ne
  have old : ∀ b node, f.nodes b = some node → b ≠ f.brk := by
    rintro b node has rfl
    rw [sound.tree.nodes_brk] at has
    cases has
  have parents : ∀ b, f.IsNamed b → g.parentOf b = f.parentOf b := fun b member => by
    obtain ⟨node, _, _, has, _⟩ := sound.tree.exists_parent member
    rw [Fuse.parentOf, others b (old b node has), Fuse.parentOf]
  have children : ∀ b, g.children b = f.children b := @children_congr f g rfl parents
  have childless : f.children f.brk = 0 := by
    refine Multiset.countP_eq_zero.mpr fun b member above => ?_
    obtain ⟨node, parent, up, has, on, hasUp⟩ := sound.tree.exists_parent member
    rw [parentOf_eq has, on] at above
    exact old parent up hasUp (Option.some.inj above)
  refine ⟨sound.tree.registered granted positive known unused, ⟨?_, ?_⟩, ?_, ?_⟩
  · intro b node has
    rw [children]
    by_cases here : b = f.brk
    · subst here
      obtain rfl := Option.some.inj (self.symm.trans has)
      rw [childless, unheld]
      rfl
    · rw [others b here] at has
      exact sound.counts.refs b node has
  · intro node has
    have rootOld : rootNode ≠ f.brk := by
      obtain ⟨top, hasTop⟩ := exists_node (by rw [sound.tree.root.1]; rfl)
      exact old rootNode top hasTop
    rw [others rootNode rootOld] at has
    exact sound.counts.rootKnown node has
  · intro b node has locked
    by_cases here : b = f.brk
    · subst here
      obtain rfl := Option.some.inj (self.symm.trans has)
      exact absurd rfl locked
    · rw [others b here] at has
      rcases sound.keeps b node has locked with looked | ⟨c, below, hasBelow, lockedBelow, rest⟩
      · exact .inl looked
      · exact .inr ⟨c, below, by rw [others c (old c below hasBelow), hasBelow], lockedBelow, rest⟩
  · refine ⟨fun b node has _ aside called => ?_, fun b node has none => ?_, sound.settled.uses⟩
    · by_cases here : b = f.brk
      · subst here
        obtain rfl := Option.some.inj (self.symm.trans has)
        cases called
      · rw [others b here] at has
        exact sound.settled.named b node has (Set.notMem_empty b) aside called
    · by_cases here : b = f.brk
      · subst here
        obtain rfl := Option.some.inj (self.symm.trans has)
        rfl
      · rw [others b here] at has
        exact sound.settled.nameless b node has none

end Register

end Libfuse

end NosqlFS
