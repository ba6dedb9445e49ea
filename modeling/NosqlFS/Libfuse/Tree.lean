import Mathlib.Data.Multiset.Count
import Mathlib.Logic.Relation
import NosqlFS.Libfuse.Nodes

/-!
# What the node table keeps

The nodes in memory are the nodes in the table of numbers.  The nodes in the table of
names form a forest, the root on top of one of its trees, and every node counts its
lookups, its children and the references that operations hold for a while.
-/

namespace NosqlFS

namespace Libfuse

open LinearHash LinearHash.Table Text

namespace Fuse

/-- The nodes that are named below a node. -/
def children (f : Fuse) (a : Nat) : Nat :=
  f.nameTable.content.countP fun b => f.parentOf b = some a

/-- The node is named in the tree. -/
def IsNamed (f : Fuse) (a : Nat) : Prop := a ∈ f.nameTable.content

/-! ## Changes of one node -/

section Modify

variable (f : Fuse) {a b : Nat} {change : Node → Node}

theorem nodes_modify_self : (f.modify a change).nodes a = (f.nodes a).map change :=
  Function.update_self ..

theorem nodes_modify_of_ne (apart : b ≠ a) : (f.modify a change).nodes b = f.nodes b :=
  Function.update_of_ne apart ..

/-- A change that leaves a field alone leaves it alone everywhere. -/
theorem field_modify {α : Type} (field : Node → α) (same : ∀ node, field (change node) = field node)
    (b : Nat) : ((f.modify a change).nodes b).map field = (f.nodes b).map field := by
  by_cases here : b = a
  · rw [here, nodes_modify_self, Option.map_map]
    exact congrArg (Option.map · _) (funext same)
  · rw [nodes_modify_of_ne f here]

theorem bind_modify {α : Type} (field : Node → Option α)
    (same : ∀ node, field (change node) = field node) (b : Nat) :
    ((f.modify a change).nodes b).bind field = (f.nodes b).bind field := by
  by_cases here : b = a
  · rw [here, nodes_modify_self, Option.bind_map]
    exact congrArg (Option.bind _ ·) (funext same)
  · rw [nodes_modify_of_ne f here]

end Modify

/-- Two states whose nodes have the same numbers, parents and names. -/
structure SameNames (f f' : Fuse) : Prop where
  nodeid : ∀ b, f'.nodeidOf b = f.nodeidOf b
  parent : ∀ b, f'.parentOf b = f.parentOf b
  name : ∀ b, f'.nameOf b = f.nameOf b

theorem SameNames.symm {f f' : Fuse} (same : SameNames f f') : SameNames f' f :=
  ⟨fun b => (same.nodeid b).symm, fun b => (same.parent b).symm, fun b => (same.name b).symm⟩

theorem sameNames_modify (f : Fuse) (a : Nat) {change : Node → Node}
    (nodeid : ∀ node, (change node).nodeid = node.nodeid)
    (parent : ∀ node, (change node).parent = node.parent)
    (name : ∀ node, (change node).name = node.name) : SameNames f (f.modify a change) :=
  ⟨field_modify f Node.nodeid nodeid, bind_modify f Node.parent parent,
    bind_modify f Node.name name⟩

theorem SameNames.idHashOf {f f' : Fuse} (same : SameNames f f') : f'.idHashOf = f.idHashOf := by
  funext b
  rw [Fuse.idHashOf, Fuse.idHashOf, same.nodeid]

theorem SameNames.nameHashOf {f f' : Fuse} (same : SameNames f f') :
    f'.nameHashOf = f.nameHashOf := by
  funext b
  have ids : f'.nodeidOf = f.nodeidOf := funext same.nodeid
  rw [Fuse.nameHashOf, Fuse.nameHashOf, same.parent, same.name, ids]

end Fuse

/-! ## The tree -/

/-- The address of the root. -/
def rootNode : Nat := 0

/-- Both tables keep what they should, and no node is below itself. -/
structure Tree (f : Fuse) : Prop where
  idWf : f.idTable.Wf nodeTableMinSize f.idHashOf
  idContent : ∀ a, a ∈ f.idTable.content ↔ (f.nodeidOf a).isSome = true
  idDistinct : f.idTable.content.Nodup
  idUse : f.idTable.use = Multiset.card f.idTable.content
  nameWf : f.nameTable.Wf nodeTableMinSize f.nameHashOf
  nameDistinct : f.nameTable.content.Nodup
  named : ∀ a, f.IsNamed a → (f.nameOf a).isSome = true ∧
    ∃ parent, f.parentOf a = some parent ∧ (f.nodeidOf parent).isSome = true
  nameSingle : ∀ a b, f.IsNamed a → f.IsNamed b → f.parentOf a = f.parentOf b →
    f.nameOf a = f.nameOf b → a = b
  acyclic : ∃ rank : Nat → Nat, ∀ a parent, f.parentOf a = some parent → rank parent < rank a
  idSingle : ∀ a b nodeid, f.nodeidOf a = some nodeid → f.nodeidOf b = some nodeid → a = b
  idRange : ∀ a nodeid, f.nodeidOf a = some nodeid → 0 < nodeid ∧ nodeid < fuseUnknownIno
  root : f.nodeidOf rootNode = some fuseRootId ∧ f.parentOf rootNode = none ∧
    ¬ f.IsNamed rootNode
  fresh : ∀ a, (f.nodeidOf a).isSome = true → a < f.brk

/-- Every reference to a node is counted; operations hold some for a while. -/
structure Counts (holds : Nat → Nat) (f : Fuse) : Prop where
  refs : ∀ a node, f.nodes a = some node →
    node.refctr = (if node.nlookup = 0 then 0 else 1) + f.children a + holds a
  rootKnown : ∀ node, f.nodes rootNode = some node → 0 < node.nlookup

/-- A locked node is kept in memory by the lookups of the kernel or by a locked node
below it. -/
def Keeps (f : Fuse) : Prop :=
  ∀ a node, f.nodes a = some node → node.treelock ≠ 0 → 0 < node.nlookup ∨
    ∃ b below, f.nodes b = some below ∧ below.treelock ≠ 0 ∧ f.IsNamed b ∧ below.parent = some a

/-- The node is below another one. -/
def Fuse.Below (f : Fuse) : Nat → Nat → Prop :=
  Relation.TransGen fun a parent => f.parentOf a = some parent

namespace Tree

variable {f f' : Fuse} {a b nodeid parentid : Nat} {name : Bytes}

theorem not_below_self (tree : Tree f) : ¬ f.Below a a := by
  obtain ⟨rank, lower⟩ := tree.acyclic
  have decreases : ∀ b c, f.Below b c → rank c < rank b := by
    intro b c below
    induction below with
    | single above => exact lower _ _ above
    | tail _ above ih => exact (lower _ _ above).trans ih
  exact fun below => (decreases a a below).false

/-- A node is found by its number exactly if it has it. -/
theorem getNode_eq_some_iff (tree : Tree f) :
    f.getNode nodeid = some a ↔ f.nodeidOf a = some nodeid := by
  rw [Fuse.getNode, Fuse.getNodeNocheck, tree.idWf.find_eq_some_iff]
  · rw [decide_eq_true_eq, tree.idContent]
    constructor
    · exact And.right
    · exact fun numbered => ⟨by rw [numbered]; rfl, numbered⟩
  · intro b _ answers
    rw [decide_eq_true_eq] at answers
    rw [Fuse.idHashOf, answers, Option.getD_some]
  · intro b _ c _ first second
    rw [decide_eq_true_eq] at first second
    exact tree.idSingle b c nodeid first second

theorem getNodeNocheck_eq_none_iff (tree : Tree f) :
    f.getNodeNocheck nodeid = none ↔ ∀ a, f.nodeidOf a ≠ some nodeid := by
  rw [Option.eq_none_iff_forall_ne_some]
  exact forall_congr' fun a => not_congr tree.getNode_eq_some_iff

theorem isNamed_iff : f.isNamed parentid name a = true ↔
    ∃ parent, f.parentOf a = some parent ∧ f.nodeidOf parent = some parentid ∧
      f.nameOf a = some name := by
  rw [Fuse.isNamed, decide_eq_true_eq, Option.bind_eq_some_iff]
  constructor
  · rintro ⟨⟨parent, above, numbered⟩, called⟩
    exact ⟨parent, above, numbered, called⟩
  · rintro ⟨parent, above, numbered, called⟩
    exact ⟨⟨parent, above, numbered⟩, called⟩

/-- A node is found by its parent and name exactly if it is named so. -/
theorem lookupNode_eq_some_iff (tree : Tree f) : f.lookupNode parentid name = some a ↔
    f.IsNamed a ∧ ∃ parent, f.parentOf a = some parent ∧ f.nodeidOf parent = some parentid ∧
      f.nameOf a = some name := by
  rw [Fuse.lookupNode, tree.nameWf.find_eq_some_iff, isNamed_iff]
  · rfl
  · intro b _ answers
    obtain ⟨parent, above, numbered, called⟩ := isNamed_iff.mp answers
    simp only [Fuse.nameHashOf, above, called, Option.bind_some, numbered, Option.getD_some]
  · intro b first c second answers others
    obtain ⟨parent, above, numbered, called⟩ := isNamed_iff.mp answers
    obtain ⟨parent', above', numbered', called'⟩ := isNamed_iff.mp others
    have same := tree.idSingle parent parent' parentid numbered numbered'
    exact tree.nameSingle b c first second (by rw [above, above', same]) (called.trans called'.symm)

theorem lookupNode_eq_none_iff (tree : Tree f) : f.lookupNode parentid name = none ↔
    ∀ a, f.IsNamed a → ∀ parent, f.parentOf a = some parent →
      f.nodeidOf parent = some parentid → f.nameOf a ≠ some name := by
  rw [Option.eq_none_iff_forall_ne_some]
  refine forall_congr' fun a => ?_
  rw [Ne, tree.lookupNode_eq_some_iff]
  constructor
  · exact fun absent member parent above numbered called =>
      absent ⟨member, parent, above, numbered, called⟩
  · rintro absent ⟨member, parent, above, numbered, called⟩
    exact absent member parent above numbered called

/-- The tree does not depend on the counters of its nodes. -/
theorem congr (tree : Tree f) (same : Fuse.SameNames f f') (idTable : f'.idTable = f.idTable)
    (nameTable : f'.nameTable = f.nameTable) (brk : f'.brk = f.brk) : Tree f' := by
  have ids : f'.nodeidOf = f.nodeidOf := funext same.nodeid
  have parents : f'.parentOf = f.parentOf := funext same.parent
  have names : f'.nameOf = f.nameOf := funext same.name
  have inTree : f'.IsNamed = f.IsNamed := funext fun a => by
    rw [Fuse.IsNamed, Fuse.IsNamed, nameTable]
  obtain ⟨idWf, idContent, idDistinct, idUse, nameWf, nameDistinct, named, nameSingle, acyclic,
    idSingle, idRange, root, fresh⟩ := tree
  constructor
  · rwa [idTable, same.idHashOf]
  · rwa [idTable, ids]
  · rwa [idTable]
  · rwa [idTable]
  · rwa [nameTable, same.nameHashOf]
  · rwa [nameTable]
  · rwa [inTree, names, parents, ids]
  · rwa [inTree, names, parents]
  · rwa [parents]
  · rwa [ids]
  · rwa [ids]
  · rwa [ids, parents, inTree]
  · rwa [ids, brk]

theorem modify (tree : Tree f) (a : Nat) {change : Node → Node}
    (nodeid : ∀ node, (change node).nodeid = node.nodeid)
    (parent : ∀ node, (change node).parent = node.parent)
    (name : ∀ node, (change node).name = node.name) : Tree (f.modify a change) :=
  tree.congr (Fuse.sameNames_modify f a nodeid parent name) rfl rfl rfl

/-! ## Small changes -/

/-- Fewer nodes may be named. -/
theorem fewerNames (tree : Tree f) {names : Table Nat}
    (wf : names.Wf nodeTableMinSize f.nameHashOf) (fewer : names.content ≤ f.nameTable.content) :
    Tree { f with nameTable := names } := by
  have before : ∀ b, Fuse.IsNamed { f with nameTable := names } b → f.IsNamed b :=
    fun b member => Multiset.mem_of_le fewer member
  exact {
    idWf := tree.idWf
    idContent := tree.idContent
    idDistinct := tree.idDistinct
    idUse := tree.idUse
    nameWf := wf
    nameDistinct := Multiset.nodup_of_le fewer tree.nameDistinct
    named := fun b member => tree.named b (before b member)
    nameSingle := fun b c first second =>
      tree.nameSingle b c (before b first) (before c second)
    acyclic := tree.acyclic
    idSingle := tree.idSingle
    idRange := tree.idRange
    root := ⟨tree.root.1, tree.root.2.1, mt (before rootNode) tree.root.2.2⟩
    fresh := tree.fresh }

/-- A node that is not named may change all but its number, as long as it does not get
below itself. -/
theorem relabel (tree : Tree f) {change : Node → Node} (unnamed : ¬ f.IsNamed a)
    (apart : a ≠ rootNode) (nodeid : ∀ node, (change node).nodeid = node.nodeid)
    (acyclic : ∃ rank : Nat → Nat, ∀ b parent, (f.modify a change).parentOf b = some parent →
      rank parent < rank b) : Tree (f.modify a change) := by
  have ids : (f.modify a change).nodeidOf = f.nodeidOf :=
    funext (Fuse.field_modify f Node.nodeid nodeid)
  have others : ∀ b, b ≠ a → (f.modify a change).nodes b = f.nodes b := fun b =>
    Fuse.nodes_modify_of_ne f
  have parents : ∀ b, b ≠ a → (f.modify a change).parentOf b = f.parentOf b := fun b away => by
    rw [Fuse.parentOf, others b away, Fuse.parentOf]
  have names : ∀ b, b ≠ a → (f.modify a change).nameOf b = f.nameOf b := fun b away => by
    rw [Fuse.nameOf, others b away, Fuse.nameOf]
  have away : ∀ b, f.IsNamed b → b ≠ a := fun b member here => unnamed (here ▸ member)
  exact {
    idWf := tree.idWf.congr fun b _ => by rw [Fuse.idHashOf, Fuse.idHashOf, ids]
    idContent := fun b => by rw [ids]; exact tree.idContent b
    idDistinct := tree.idDistinct
    idUse := tree.idUse
    nameWf := tree.nameWf.congr fun b member => by
      rw [Fuse.nameHashOf, Fuse.nameHashOf, ids, parents b (away b member),
        names b (away b member)]
    nameDistinct := tree.nameDistinct
    named := fun b member => by
      rw [ids, names b (away b member), parents b (away b member)]
      exact tree.named b member
    nameSingle := fun b c first second => by
      rw [parents b (away b first), parents c (away c second), names b (away b first),
        names c (away c second)]
      exact tree.nameSingle b c first second
    acyclic := acyclic
    idSingle := by rw [ids]; exact tree.idSingle
    idRange := by rw [ids]; exact tree.idRange
    root := by rw [ids, parents rootNode apart.symm]; exact tree.root
    fresh := by rw [ids]; exact tree.fresh }

/-- A node in memory can be taken out of the table of numbers. -/
theorem unhashId_eq (tree : Tree f) (inMemory : (f.nodeidOf a).isSome = true) :
    ∃ ids : Table Nat, f.unhashId a = { f with idTable := ids } ∧
      ids.Wf nodeTableMinSize f.idHashOf ∧ f.idTable.content = a ::ₘ ids.content ∧
      ids.use = f.idTable.use - 1 := by
  obtain ⟨taken, took, wf, content, use⟩ := take_of_mem tree.idWf ((tree.idContent a).mpr inMemory)
  obtain ⟨settled, same, fewer⟩ := @rearranged_settle _ nodeTableMinSize _ _ wf
  refine ⟨taken.settle nodeTableMinSize, ?_, settled, by rw [same, content], by rw [fewer, use]⟩
  rw [Fuse.unhashId, took]

/-- A node without a name and without named nodes below it can be freed. -/
theorem freed (tree : Tree f) (inMemory : (f.nodeidOf a).isSome = true) (unnamed : ¬ f.IsNamed a)
    (childless : ∀ b, f.IsNamed b → f.parentOf b ≠ some a) (apart : a ≠ rootNode) :
    Tree ((f.unhashId a).freeNode a) := by
  obtain ⟨ids, unhashed, wf, content, use⟩ := tree.unhashId_eq inMemory
  rw [unhashed]
  set g : Fuse := Fuse.freeNode { f with idTable := ids } a with freed
  have others : ∀ b, b ≠ a → g.nodes b = f.nodes b := fun b away => Function.update_of_ne away ..
  have gone : g.nodes a = none := Function.update_self ..
  have numbers : ∀ b, b ≠ a → g.nodeidOf b = f.nodeidOf b := fun b away => by
    rw [Fuse.nodeidOf, others b away, Fuse.nodeidOf]
  have parents : ∀ b, b ≠ a → g.parentOf b = f.parentOf b := fun b away => by
    rw [Fuse.parentOf, others b away, Fuse.parentOf]
  have names : ∀ b, b ≠ a → g.nameOf b = f.nameOf b := fun b away => by
    rw [Fuse.nameOf, others b away, Fuse.nameOf]
  have numberless : g.nodeidOf a = none := by rw [Fuse.nodeidOf, gone]; rfl
  have numbered : ∀ b nodeid, g.nodeidOf b = some nodeid → f.nodeidOf b = some nodeid :=
    fun b nodeid has => by
      by_cases here : b = a
      · rw [here, numberless] at has
        cases has
      · rwa [numbers b here] at has
  have away : ∀ b, f.IsNamed b → b ≠ a := fun b member here => unnamed (here ▸ member)
  have single := tree.idDistinct
  rw [content, Multiset.nodup_cons] at single
  have left : ∀ b, b ∈ ids.content ↔ (g.nodeidOf b).isSome = true := fun b => by
    have all := tree.idContent b
    rw [content, Multiset.mem_cons] at all
    by_cases here : b = a
    · rw [here, numberless]
      exact iff_of_false single.1 Bool.false_ne_true
    · rw [numbers b here, ← all]
      exact ⟨.inr, fun either => either.resolve_left here⟩
  obtain ⟨rank, lower⟩ := tree.acyclic
  exact {
    idWf := wf.congr fun b member => by
      rw [Fuse.idHashOf, Fuse.idHashOf, numbers b fun here => single.1 (here ▸ member)]
    idContent := left
    idDistinct := single.2
    idUse := by
      change ids.use = _
      rw [use, tree.idUse, content, Multiset.card_cons, Nat.add_sub_cancel]
      rfl
    nameWf := tree.nameWf.congr fun b member => by
      obtain ⟨_, parent, above, _⟩ := tree.named b member
      have aboveOther : parent ≠ a := fun here => childless b member (here ▸ above)
      rw [Fuse.nameHashOf, Fuse.nameHashOf, parents b (away b member), names b (away b member),
        above, Option.bind_some, Option.bind_some, numbers parent aboveOther]
    nameDistinct := tree.nameDistinct
    named := fun b member => by
      obtain ⟨called, parent, above, known⟩ := tree.named b member
      have aboveOther : parent ≠ a := fun here => childless b member (here ▸ above)
      exact ⟨by rwa [names b (away b member)], parent, by rwa [parents b (away b member)],
        by rwa [numbers parent aboveOther]⟩
    nameSingle := fun b c first second => by
      rw [parents b (away b first), parents c (away c second), names b (away b first),
        names c (away c second)]
      exact tree.nameSingle b c first second
    acyclic := ⟨rank, fun b parent above => by
      by_cases here : b = a
      · rw [here, Fuse.parentOf, gone] at above
        cases above
      · rw [parents b here] at above
        exact lower b parent above⟩
    idSingle := fun b c nodeid first second =>
      tree.idSingle b c nodeid (numbered b nodeid first) (numbered c nodeid second)
    idRange := fun b nodeid has => tree.idRange b nodeid (numbered b nodeid has)
    root := by
      rw [numbers rootNode apart.symm, parents rootNode apart.symm]
      exact tree.root
    fresh := fun b has => by
      obtain ⟨nodeid, has⟩ := Option.isSome_iff_exists.mp has
      exact tree.fresh b (by rw [numbered b nodeid has]; rfl) }

end Tree

end Libfuse

end NosqlFS
