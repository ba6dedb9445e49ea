import NosqlFS.Libfuse.Tree

/-!
# Dropping a reference

Dropping the last reference to a node deletes it, and with its name the reference to its
parent, and so on upwards.  No assertion on the way fails: a node without references has
no lookups and nothing below it, so that nobody keeps it locked, and it is in the tables
that it has to be taken from.
-/

namespace NosqlFS

namespace Libfuse

open LinearHash LinearHash.Table Text

/-- A node that has lost its name. -/
def Node.nameless (node : Node) : Node := { node with name := none, parent := none }

/-- A node with a name is in the table of names, unless it has just left it, and the
table counts no node twice. -/
structure Settled (pending : Set Nat) (f : Fuse) : Prop where
  named : ∀ b node, f.nodes b = some node → b ∉ pending → b ≠ rootNode →
    node.name.isSome = true → f.IsNamed b
  nameless : ∀ b node, f.nodes b = some node → node.name = none → node.parent = none
  uses : Multiset.card f.nameTable.content ≤ f.nameTable.use

/-- The node table between two steps of an operation. -/
structure Sound (pending : Set Nat) (holds : Nat → Nat) (f : Fuse) : Prop where
  tree : Tree f
  counts : Counts holds f
  keeps : Keeps f
  settled : Settled pending f

/-- What dropping references may do: nodes that nobody looked up, locked or holds go, and
the others only lose references.  One node may lose its name. -/
structure Pruned (holds : Nat → Nat) (cleared : Option Nat) (f f' : Fuse) : Prop where
  same : ∀ b node', f'.nodes b = some node' → ∃ node, f.nodes b = some node ∧
    (node.refctr = 0 ↔ node'.refctr = 0) ∧
    node' = { (if cleared = some b then node.nameless else node) with refctr := node'.refctr }
  lost : ∀ b node, f.nodes b = some node → f'.nodes b = none →
    node.nlookup = 0 ∧ node.treelock = 0 ∧ holds b = 0 ∧ node.refctr ≠ 0
  named : ∀ b, f'.IsNamed b ↔ f.IsNamed b ∧ cleared ≠ some b ∧ (f'.nodes b).isSome = true
  uses : f'.nameTable.use + Multiset.card f.nameTable.content =
    f.nameTable.use + Multiset.card f'.nameTable.content
  brk : f'.brk = f.brk
  ctr : f'.ctr = f.ctr
  generation : f'.generation = f.generation
  hidectr : f'.hidectr = f.hidectr

section Children

variable {f f' : Fuse} {a parent : Nat}

theorem children_congr (content : f'.nameTable.content = f.nameTable.content)
    (parents : ∀ b, f.IsNamed b → f'.parentOf b = f.parentOf b) (a : Nat) :
    f'.children a = f.children a := by
  unfold Fuse.children
  rw [content]
  exact Multiset.countP_congr rfl fun b member => by rw [parents b member]

/-- A node that leaves the table of names is no longer counted by its parent. -/
theorem children_taken {names : Table Nat}
    (content : f.nameTable.content = a ::ₘ names.content) (above : f.parentOf a = some parent)
    (b : Nat) :
    f.children b = ({ f with nameTable := names } : Fuse).children b +
      if b = parent then 1 else 0 := by
  unfold Fuse.children
  rw [content, Multiset.countP_cons, above]
  congr 1
  simp only [Option.some.injEq, eq_comm]

theorem parentOf_ne_of_children (none : f.children a = 0) {b : Nat} (member : f.IsNamed b) :
    f.parentOf b ≠ some a :=
  Multiset.countP_eq_zero.mp none b member

theorem parentOf_eq {b : Nat} {node : Node} (has : f.nodes b = some node) :
    f.parentOf b = node.parent := by
  rw [Fuse.parentOf, has]
  rfl

theorem nodeidOf_isSome {b : Nat} {node : Node} (has : f.nodes b = some node) :
    (f.nodeidOf b).isSome = true := by
  rw [Fuse.nodeidOf, has]
  rfl

theorem exists_node {b : Nat} (known : (f.nodeidOf b).isSome = true) :
    ∃ node, f.nodes b = some node := by
  rw [Fuse.nodeidOf, Option.isSome_map] at known
  exact Option.isSome_iff_exists.mp known

/-- A named node is in memory, and so is its parent. -/
theorem Tree.exists_parent (tree : Tree f) {b : Nat} (member : f.IsNamed b) :
    ∃ node parent above, f.nodes b = some node ∧ node.parent = some parent ∧
      f.nodes parent = some above := by
  obtain ⟨_, parent, isAbove, known⟩ := tree.named b member
  obtain ⟨above, memory⟩ := exists_node known
  obtain ⟨node, has, below⟩ := Option.bind_eq_some_iff.mp isAbove
  exact ⟨node, parent, above, has, below, memory⟩

end Children

/-! ## Changes that do not count -/

section Transport

variable {f f' : Fuse} {holds : Nat → Nat}

theorem Counts.congr (counts : Counts holds f)
    (back : ∀ b node', f'.nodes b = some node' → ∃ node, f.nodes b = some node ∧
      node'.refctr = node.refctr ∧ node'.nlookup = node.nlookup)
    (children : ∀ b, f'.children b = f.children b) : Counts holds f' := by
  constructor
  · intro b node' has
    obtain ⟨node, had, refctr, nlookup⟩ := back b node' has
    rw [refctr, nlookup, children, counts.refs b node had]
  · intro node' has
    obtain ⟨node, had, _, nlookup⟩ := back rootNode node' has
    rw [nlookup]
    exact counts.rootKnown node had

theorem Keeps.congr (keeps : Keeps f)
    (back : ∀ b node', f'.nodes b = some node' → ∃ node, f.nodes b = some node ∧
      node'.nlookup = node.nlookup ∧ node'.treelock = node.treelock)
    (support : ∀ b below, f.nodes b = some below → below.treelock ≠ 0 → f.IsNamed b →
      ∃ below', f'.nodes b = some below' ∧ below'.treelock ≠ 0 ∧ f'.IsNamed b ∧
        below'.parent = below.parent) : Keeps f' := by
  intro a node' has locked
  obtain ⟨node, had, nlookup, treelock⟩ := back a node' has
  rw [nlookup]
  rw [treelock] at locked
  rcases keeps a node had locked with known | ⟨b, below, hasBelow, lockedBelow, member, above⟩
  · exact .inl known
  · obtain ⟨below', hasBelow', locked', member', same⟩ :=
      support b below hasBelow lockedBelow member
    exact .inr ⟨b, below', hasBelow', locked', member', same.trans above⟩

/-- A node that a change leaves alone, and one that it does not. -/
theorem nodes_modify_eq_some {a b : Nat} {change : Node → Node} {node' : Node}
    (has : (f.modify a change).nodes b = some node') :
    ∃ node, f.nodes b = some node ∧ node' = if b = a then change node else node := by
  by_cases here : b = a
  · subst here
    rw [Fuse.nodes_modify_self, Option.map_eq_some_iff] at has
    obtain ⟨node, had, changed⟩ := has
    exact ⟨node, had, by rw [if_pos rfl, changed]⟩
  · rw [Fuse.nodes_modify_of_ne f here] at has
    exact ⟨node', has, by rw [if_neg here]⟩

theorem Pruned.keeps {cleared : Option Nat} (keeps : Keeps f) (pruned : Pruned holds cleared f f')
    (spared : ∀ a node parent above, cleared = some a → f.nodes a = some node →
      node.treelock ≠ 0 → node.parent = some parent → f.nodes parent = some above →
      0 < above.nlookup) : Keeps f' := by
  intro a node' has locked
  obtain ⟨node, had, _, same⟩ := pruned.same a node' has
  have nlookup : node'.nlookup = node.nlookup := by rw [same]; split <;> rfl
  have treelock : node'.treelock = node.treelock := by rw [same]; split <;> rfl
  rw [nlookup]
  rw [treelock] at locked
  rcases keeps a node had locked with known | ⟨b, below, hasBelow, lockedBelow, member, above⟩
  · exact .inl known
  · by_cases unnamed : cleared = some b
    · exact .inl (spared b below a node unnamed hasBelow lockedBelow above had)
    · cases hasBelow' : f'.nodes b with
      | none => exact absurd (pruned.lost b below hasBelow hasBelow').2.1 lockedBelow
      | some below' =>
          obtain ⟨below'', hasBelow'', _, same'⟩ := pruned.same b below' hasBelow'
          obtain rfl := Option.some.inj (hasBelow.symm.trans hasBelow'')
          rw [if_neg unnamed] at same'
          refine .inr ⟨b, below', hasBelow', by rw [same']; exact lockedBelow, ?_, ?_⟩
          · exact (pruned.named b).mpr ⟨member, unnamed, by rw [hasBelow']; rfl⟩
          · rw [same']
            exact above

end Transport

/-! ## Taking a name away -/

section Names

variable {unref : Fuse → Nat → Option Fuse} {f h : Fuse} {a parent : Nat} {node above : Node}
  {pending : Set Nat} {holds : Nat → Nat} {names : Table Nat}

/-- One reference more than an operation holds is held for a while. -/
def oneMore (holds : Nat → Nat) (a : Nat) : Nat → Nat := fun b =>
  holds b + if b = a then 1 else 0

/-- Dropping a reference works in every state with fewer named nodes, if what has just
left the table is below. -/
def DropsBelow (unref : Fuse → Nat → Option Fuse) (bound : Nat) : Prop :=
  ∀ (f : Fuse) (a : Nat) (holds : Nat → Nat) (pending : Set Nat),
    Sound pending (oneMore holds a) f → (f.nodeidOf a).isSome = true →
    (∀ b ∈ pending, f.Below b a) → Multiset.card f.nameTable.content < bound →
    ∃ f', unref f a = some f' ∧ Sound pending holds f' ∧ Pruned holds none f f'

/-- A node that leaves the table of names no longer counts for its parent. -/
theorem sound_taken (sound : Sound pending holds f) (has : f.nodes a = some node)
    (isAbove : node.parent = some parent) (hasAbove : f.nodes parent = some above)
    (spared : node.treelock ≠ 0 → 0 < above.nlookup)
    (wf : names.Wf nodeTableMinSize f.nameHashOf)
    (content : f.nameTable.content = a ::ₘ names.content) (uses : names.use = f.nameTable.use) :
    Sound (insert a pending) (oneMore holds parent) { f with nameTable := names } := by
  have single := sound.tree.nameDistinct
  rw [content, Multiset.nodup_cons] at single
  have member : ∀ b, f.IsNamed b ↔ b = a ∨ b ∈ names.content := fun b => by
    rw [Fuse.IsNamed, content, Multiset.mem_cons]
  refine ⟨sound.tree.fewerNames wf (by rw [content]; exact Multiset.le_cons_self _ _), ?_, ?_, ?_⟩
  · refine ⟨fun b node' has' => ?_, sound.counts.rootKnown⟩
    have counted := sound.counts.refs b node' has'
    rw [children_taken content (by rw [parentOf_eq has, isAbove]) b] at counted
    rw [counted, oneMore]
    omega
  · intro c below hasBelow locked
    rcases sound.keeps c below hasBelow locked with known | ⟨b, node', has', locked', named', on⟩
    · exact .inl known
    · rcases (member b).mp named' with rfl | stays
      · obtain rfl := Option.some.inj (has.symm.trans has')
        obtain rfl := Option.some.inj (isAbove.symm.trans on)
        obtain rfl := Option.some.inj (hasAbove.symm.trans hasBelow)
        exact .inl (spared locked')
      · exact .inr ⟨b, node', has', locked', stays, on⟩
  · refine ⟨fun b node' has' old away called => ?_, sound.settled.nameless, ?_⟩
    · rw [Set.mem_insert_iff, not_or] at old
      exact ((member b).mp (sound.settled.named b node' has' old.2 away called)).resolve_left old.1
    · have before := sound.settled.uses
      rw [content, Multiset.card_cons] at before
      change Multiset.card names.content ≤ names.use
      omega

/-- The state after the name of a node has been cleared. -/
def clearName (h : Fuse) (a : Nat) : Fuse :=
  { h.modify a Node.nameless with
    nameTable := (h.modify a Node.nameless).nameTable.settle nodeTableMinSize }

/-- A node that has left the table may lose its name. -/
theorem sound_cleared (sound : Sound (insert a pending) holds h) (unnamed : ¬ h.IsNamed a)
    (apart : a ≠ rootNode) (spare : Multiset.card h.nameTable.content < h.nameTable.use) :
    Sound pending holds (clearName h a) := by
  set g := h.modify a Node.nameless with modified
  have parents : ∀ b, b ≠ a → g.parentOf b = h.parentOf b := fun b away => by
    rw [Fuse.parentOf, modified, Fuse.nodes_modify_of_ne h away, Fuse.parentOf]
  have back : ∀ b node', g.nodes b = some node' → ∃ node, h.nodes b = some node ∧
      node' = if b = a then node.nameless else node := fun b node' => nodes_modify_eq_some
  have tree : Tree g := by
    refine sound.tree.relabel unnamed apart (fun _ => rfl) ?_
    obtain ⟨rank, lower⟩ := sound.tree.acyclic
    refine ⟨rank, fun b parent isAbove => ?_⟩
    by_cases here : b = a
    · obtain ⟨node, has, onNode⟩ := Option.bind_eq_some_iff.mp isAbove
      obtain ⟨_, _, same⟩ := back b node has
      rw [same, if_pos here] at onNode
      cases onNode
    · rw [parents b here] at isAbove
      exact lower b parent isAbove
  obtain ⟨wf, content, use⟩ := rearranged_settle tree.nameWf
  have away : ∀ b, h.IsNamed b → b ≠ a := fun b member here => unnamed (here ▸ member)
  have named : ∀ b, (clearName h a).IsNamed b ↔ h.IsNamed b := fun b => by
    rw [Fuse.IsNamed, Fuse.IsNamed]
    exact iff_of_eq (congrArg (b ∈ ·) content)
  refine ⟨tree.fewerNames wf (le_of_eq content), ?_, ?_, ?_⟩
  · refine sound.counts.congr (fun b node' has => ?_)
      (children_congr content fun b member => parents b (away b member))
    obtain ⟨node, had, same⟩ := back b node' has
    refine ⟨node, had, ?_⟩
    rw [same]
    split <;> exact ⟨rfl, rfl⟩
  · refine sound.keeps.congr (fun b node' has => ?_) fun b below has locked member => ?_
    · obtain ⟨node, had, same⟩ := back b node' has
      refine ⟨node, had, ?_⟩
      rw [same]
      split <;> exact ⟨rfl, rfl⟩
    · refine ⟨below, ?_, locked, (named b).mpr member, rfl⟩
      rw [← has]
      exact Fuse.nodes_modify_of_ne h (away b member)
  · refine ⟨fun b node' has old aside called => ?_, fun b node' has none => ?_, ?_⟩
    · obtain ⟨node, had, same⟩ := back b node' has
      by_cases here : b = a
      · rw [same, if_pos here] at called
        cases called
      · rw [if_neg here] at same
        rw [same] at called
        exact (named b).mpr (sound.settled.named b node had
          (fun joined => (Set.mem_insert_iff.mp joined).elim here old) aside called)
    · obtain ⟨node, had, same⟩ := back b node' has
      by_cases here : b = a
      · rw [same, if_pos here]
        rfl
      · rw [if_neg here] at same
        rw [same] at none ⊢
        exact sound.settled.nameless b node had none
    · rw [show (clearName h a).nameTable.content = h.nameTable.content from content,
        show (clearName h a).nameTable.use = h.nameTable.use - 1 from use]
      omega

/-- What has left the table and lost its name is pruned from it. -/
theorem pruned_cleared (tree : Tree h)
    (wf : f.nameTable.content = a ::ₘ names.content) (uses : names.use = f.nameTable.use)
    (single : a ∉ names.content) (spare : Multiset.card f.nameTable.content ≤ f.nameTable.use)
    (pruned : Pruned holds none { f with nameTable := names } h) :
    Pruned holds (some a) f (clearName h a) := by
  obtain ⟨_, content, use⟩ := rearranged_settle tree.nameWf
  have named : ∀ b, (clearName h a).IsNamed b ↔ h.IsNamed b := fun b => by
    rw [Fuse.IsNamed, Fuse.IsNamed]
    exact iff_of_eq (congrArg (b ∈ ·) content)
  have memory : ∀ b, ((clearName h a).nodes b).isSome = (h.nodes b).isSome := fun b => by
    by_cases here : b = a
    · rw [here, show (clearName h a).nodes a = _ from Fuse.nodes_modify_self h, Option.isSome_map]
    · rw [show (clearName h a).nodes b = _ from Fuse.nodes_modify_of_ne h here]
  have counted := pruned.uses
  refine ⟨fun b node' has' => ?_, fun b node' has' gone => ?_, fun b => ?_, ?_, pruned.brk,
    pruned.ctr, pruned.generation, pruned.hidectr⟩
  · obtain ⟨middle, hasMiddle, changed⟩ := nodes_modify_eq_some has'
    obtain ⟨first, hasFirst, zero, same⟩ := pruned.same b middle hasMiddle
    refine ⟨first, hasFirst, ?_⟩
    rw [if_neg (Option.some_ne_none b).symm] at same
    by_cases here : b = a
    · rw [if_pos here] at changed
      rw [if_pos (congrArg some here.symm), changed, same]
      exact ⟨zero, rfl⟩
    · rw [if_neg here] at changed
      rw [if_neg fun equal => here (Option.some.inj equal).symm, changed]
      exact ⟨zero, same⟩
  · refine pruned.lost b node' has' ?_
    rw [← Option.not_isSome_iff_eq_none, ← memory, gone]
    exact Bool.false_ne_true
  · rw [named, pruned.named, memory, Fuse.IsNamed, Fuse.IsNamed, wf, Multiset.mem_cons]
    constructor
    · rintro ⟨member, _, inMemory⟩
      exact ⟨.inr member, fun same => single (Option.some.inj same ▸ member), inMemory⟩
    · rintro ⟨member, apart, inMemory⟩
      exact ⟨member.resolve_left fun same => apart (congrArg some same.symm),
        (Option.some_ne_none b).symm, inMemory⟩
  · rw [show (clearName h a).nameTable.content = h.nameTable.content from content,
      show (clearName h a).nameTable.use = h.nameTable.use - 1 from use]
    rw [wf, Multiset.card_cons] at spare ⊢
    change h.nameTable.use + Multiset.card names.content =
      names.use + Multiset.card h.nameTable.content at counted
    omega

/-- A node that is not named has no name to lose. -/
theorem pruned_nameless (sound : Sound pending holds f) (has : f.nodes a = some node)
    (nameless : node.name = none) : Pruned holds (some a) f f := by
  have unnamed : ¬ f.IsNamed a := fun member => by
    have called := (sound.tree.named a member).1
    rw [Fuse.nameOf, has, Option.bind_some, nameless] at called
    cases called
  refine ⟨fun b node' has' => ⟨node', has', Iff.rfl, ?_⟩, fun b node' has' gone => ?_,
    fun b => ⟨fun member => ⟨member, ?_, ?_⟩, And.left⟩, rfl, rfl, rfl, rfl, rfl⟩
  · split
    · rename_i here
      obtain rfl := Option.some.inj here
      obtain rfl := Option.some.inj (has.symm.trans has')
      rw [Node.nameless, ← nameless, ← sound.settled.nameless a node has nameless]
    · rfl
  · rw [has'] at gone
    cases gone
  · exact fun here => unnamed (Option.some.inj here ▸ member)
  · obtain ⟨node', _, _, has', _⟩ := sound.tree.exists_parent member
    rw [has']
    rfl

theorem unhashNameBy_spec (drops : DropsBelow unref (Multiset.card f.nameTable.content))
    (sound : Sound pending holds f) (has : f.nodes a = some node) (fresh : a ∉ pending)
    (below : ∀ b ∈ pending, f.Below b a) (apart : a ≠ rootNode)
    (stays : node.nlookup = 0 → node.treelock = 0 → node.refctr = 0)
    (spared : node.treelock ≠ 0 → ∀ parent above, node.parent = some parent →
      f.nodes parent = some above → 0 < above.nlookup) :
    ∃ f', f.unhashNameBy unref a = some f' ∧ Sound pending holds f' ∧ Pruned holds (some a) f f' := by
  cases called : node.name with
  | none =>
      refine ⟨f, ?_, sound, pruned_nameless sound has called⟩
      simp only [Fuse.unhashNameBy, has, called, Option.bind_eq_bind, Option.bind_some]
      rfl
  | some name =>
      have member := sound.settled.named a node has fresh apart (by rw [called]; rfl)
      obtain ⟨node', parent, above, has', isAbove, hasAbove⟩ := sound.tree.exists_parent member
      obtain rfl := Option.some.inj (has.symm.trans has')
      obtain ⟨names, took, wf, content, uses⟩ := take_of_mem sound.tree.nameWf member
      have single := sound.tree.nameDistinct
      rw [content, Multiset.nodup_cons] at single
      have taken := sound_taken sound has isAbove hasAbove
        (fun locked => spared locked parent above isAbove hasAbove) wf content uses
      have upward : ∀ b ∈ insert a pending, f.Below b parent := by
        intro b joined
        have last : f.parentOf a = some parent := by rw [parentOf_eq has, isAbove]
        rcases joined with rfl | old
        · exact .single last
        · exact (below b old).tail last
      obtain ⟨h, dropped, soundh, pruned⟩ := drops _ parent holds (insert a pending) taken
        (nodeidOf_isSome hasAbove) upward (by rw [content, Multiset.card_cons]; exact Nat.lt_succ_self _)
      have unnamed : ¬ h.IsNamed a := fun member => single.1 ((pruned.named a).mp member).1
      obtain ⟨left, inMemory⟩ : ∃ left, h.nodes a = some left := by
        cases gone : h.nodes a with
        | none =>
            obtain ⟨unknown, unlocked, -, counted⟩ := pruned.lost a node has gone
            exact absurd (stays unknown unlocked) counted
        | some left => exact ⟨left, rfl⟩
      have counted := pruned.uses
      have spare := sound.settled.uses
      refine ⟨clearName h a, ?_, sound_cleared soundh unnamed apart ?_,
        pruned_cleared soundh.tree content uses single.1 sound.settled.uses pruned⟩
      · simp only [Fuse.unhashNameBy, has, called, isAbove, took, dropped, inMemory,
          Option.bind_eq_bind, Option.bind_some]
        rfl
      · change h.nameTable.use + Multiset.card names.content =
          names.use + Multiset.card h.nameTable.content at counted
        rw [content, Multiset.card_cons] at spare
        omega

/-! ## Deleting a node -/

/-- Only the node itself is gone after it has been freed. -/
theorem nodes_freed (ids : Table Nat) (b : Nat) :
    (Fuse.freeNode { f with idTable := ids } a).nodes b = if b = a then none else f.nodes b := by
  by_cases here : b = a
  · rw [if_pos here, here]
    exact Function.update_self ..
  · rw [if_neg here]
    exact Function.update_of_ne here ..

/-- A node without references and without a name can be freed. -/
theorem sound_freed (sound : Sound pending holds f) (has : f.nodes a = some node)
    (unnamed : ¬ f.IsNamed a) (unreferred : node.refctr = 0) (apart : a ≠ rootNode) :
    Sound pending holds ((f.unhashId a).freeNode a) := by
  have counted := sound.counts.refs a node has
  have childless : ∀ b, f.IsNamed b → f.parentOf b ≠ some a := fun b member =>
    parentOf_ne_of_children (by omega) member
  have inMemory := nodeidOf_isSome has
  have tree := sound.tree.freed inMemory unnamed childless apart
  obtain ⟨ids, unhashed, -⟩ := sound.tree.unhashId_eq inMemory
  rw [unhashed] at tree ⊢
  have back : ∀ b node', (Fuse.freeNode { f with idTable := ids } a).nodes b = some node' →
      b ≠ a ∧ f.nodes b = some node' := fun b node' has' => by
    rw [nodes_freed] at has'
    split at has'
    · cases has'
    · rename_i away
      exact ⟨away, has'⟩
  have away : ∀ b, f.IsNamed b → b ≠ a := fun b member here => unnamed (here ▸ member)
  refine ⟨tree, ?_, ?_, ?_⟩
  · refine sound.counts.congr (fun b node' has' => ⟨node', (back b node' has').2, rfl, rfl⟩)
      (children_congr rfl fun b member => ?_)
    rw [Fuse.parentOf, nodes_freed, if_neg (away b member), Fuse.parentOf]
  · refine sound.keeps.congr (fun b node' has' => ⟨node', (back b node' has').2, rfl, rfl⟩)
      fun b below hasBelow locked member => ⟨below, ?_, locked, member, rfl⟩
    rw [nodes_freed, if_neg (away b member), hasBelow]
  · exact ⟨fun b node' has' => sound.settled.named b node' (back b node' has').2,
      fun b node' has' => sound.settled.nameless b node' (back b node' has').2,
      sound.settled.uses⟩

/-- A node without references is not locked. -/
theorem treelock_eq_zero (sound : Sound pending holds f) (has : f.nodes a = some node)
    (unreferred : node.refctr = 0) : node.treelock = 0 := by
  by_contra locked
  have counted := sound.counts.refs a node has
  rcases sound.keeps a node has locked with known | ⟨b, below, hasBelow, _, member, on⟩
  · rw [if_neg (Nat.pos_iff_ne_zero.mp known)] at counted
    omega
  · exact parentOf_ne_of_children (a := a) (by omega) member (by rw [parentOf_eq hasBelow, on])

theorem deleteNodeBy_spec (drops : DropsBelow unref (Multiset.card f.nameTable.content))
    (sound : Sound pending holds f) (has : f.nodes a = some node) (fresh : a ∉ pending)
    (below : ∀ b ∈ pending, f.Below b a) (unreferred : node.refctr = 0) :
    ∃ c ids, f.deleteNodeBy unref a = some (Fuse.freeNode { c with idTable := ids } a) ∧
      Sound pending holds (Fuse.freeNode { c with idTable := ids } a) ∧ Pruned holds (some a) f c := by
  have unlocked := treelock_eq_zero sound has unreferred
  have apart : a ≠ rootNode := by
    rintro rfl
    have counted := sound.counts.refs rootNode node has
    rw [if_neg (Nat.pos_iff_ne_zero.mp (sound.counts.rootKnown node has))] at counted
    omega
  obtain ⟨c, nameless, soundc, pruned⟩ := unhashNameBy_spec drops sound has fresh below apart
    (fun _ _ => unreferred) fun locked => absurd unlocked locked
  obtain ⟨left, hasLeft⟩ : ∃ left, c.nodes a = some left := by
    cases gone : c.nodes a with
    | none => exact absurd unreferred (pruned.lost a node has gone).2.2.2
    | some left => exact ⟨left, rfl⟩
  obtain ⟨node', has', zero, _⟩ := pruned.same a left hasLeft
  obtain rfl := Option.some.inj (has.symm.trans has')
  have unnamed : ¬ c.IsNamed a := fun member => ((pruned.named a).mp member).2.1 rfl
  have soundFreed := sound_freed soundc hasLeft unnamed (zero.mp unreferred) apart
  obtain ⟨ids, unhashed, -⟩ := soundc.tree.unhashId_eq (nodeidOf_isSome hasLeft)
  rw [unhashed] at soundFreed
  refine ⟨c, ids, ?_, soundFreed, pruned⟩
  simp only [Fuse.deleteNodeBy, has, nameless, unlocked, unhashed, Option.bind_eq_bind,
    Option.bind_some, ne_eq, not_true_eq_false, if_false]
  rfl

/-! ## Dropping a reference -/

/-- The node has a reference less. -/
def dropOne (node : Node) : Node := { node with refctr := node.refctr - 1 }

/-- A node may count otherwise, if its references are counted and what its lock needs
stays. -/
theorem sound_recount {holds' : Nat → Nat} {change : Node → Node} (sound : Sound pending holds f)
    (nodeid : ∀ node, (change node).nodeid = node.nodeid)
    (parent : ∀ node, (change node).parent = node.parent)
    (name : ∀ node, (change node).name = node.name)
    (treelock : ∀ node, (change node).treelock = node.treelock)
    (here : ∀ node, f.nodes a = some node → (change node).refctr =
      (if (change node).nlookup = 0 then 0 else 1) + f.children a + holds' a)
    (others : ∀ b, b ≠ a → holds' b = holds b)
    (stays : ∀ node, f.nodes a = some node → (a = rootNode ∨ node.treelock ≠ 0) →
      0 < node.nlookup → 0 < (change node).nlookup) : Sound pending holds' (f.modify a change) := by
  have names : Fuse.SameNames f (f.modify a change) :=
    Fuse.sameNames_modify f a nodeid parent name
  have back : ∀ b node', (f.modify a change).nodes b = some node' → ∃ node,
      f.nodes b = some node ∧ node' = if b = a then change node else node :=
    fun b node' => nodes_modify_eq_some
  have kept : ∀ b node, f.nodes b = some node → ∃ node', (f.modify a change).nodes b = some node' ∧
      node'.parent = node.parent ∧ node'.treelock = node.treelock := by
    intro b node has
    by_cases site : b = a
    · subst site
      exact ⟨change node, by rw [Fuse.nodes_modify_self, has]; rfl, parent node, treelock node⟩
    · exact ⟨node, by rw [Fuse.nodes_modify_of_ne f site, has], rfl, rfl⟩
  refine ⟨sound.tree.congr names rfl rfl rfl, ⟨?_, ?_⟩, ?_, ?_⟩
  · intro b node' has
    obtain ⟨node, had, same⟩ := back b node' has
    have counted := sound.counts.refs b node had
    have children : (f.modify a change).children b = f.children b :=
      @children_congr f (f.modify a change) rfl (fun c _ => names.parent c) b
    rw [children, same]
    by_cases site : b = a
    · subst site
      rw [if_pos rfl]
      exact here node had
    · rw [if_neg site, others b site]
      exact counted
  · intro node' has
    obtain ⟨node, had, same⟩ := back rootNode node' has
    have known := sound.counts.rootKnown node had
    rw [same]
    split
    · rename_i site
      exact stays node (site ▸ had) (.inl site.symm) known
    · exact known
  · intro b node' has locked
    obtain ⟨node, had, same⟩ := back b node' has
    obtain ⟨_, has'', _, lockedSame⟩ := kept b node had
    obtain rfl := Option.some.inj (has.symm.trans has'')
    rw [lockedSame] at locked
    rcases sound.keeps b node had locked with known | ⟨c, below, hasBelow, lockedBelow, member, on⟩
    · refine .inl ?_
      rw [same]
      split
      · rename_i site
        exact stays node (site ▸ had) (.inr locked) known
      · exact known
    · obtain ⟨below', hasBelow', onBelow, treelockBelow⟩ := kept c below hasBelow
      exact .inr ⟨c, below', hasBelow', by rwa [treelockBelow], member, onBelow.trans on⟩
  · refine ⟨fun b node' has old away called => ?_, fun b node' has none => ?_,
      sound.settled.uses⟩
    · obtain ⟨node, had, same⟩ := back b node' has
      refine sound.settled.named b node had old away ?_
      rw [same] at called
      split at called
      · rwa [name] at called
      · exact called
    · obtain ⟨node, had, same⟩ := back b node' has
      rw [same] at none ⊢
      split at none
      · rename_i site
        rw [if_pos site, parent]
        rw [name] at none
        exact sound.settled.nameless b node had none
      · rename_i site
        rw [if_neg site]
        exact sound.settled.nameless b node had none

theorem sound_dropOne (sound : Sound pending (oneMore holds a) f) :
    Sound pending holds (f.modify a dropOne) := by
  refine sound_recount sound (fun _ => rfl) (fun _ => rfl) (fun _ => rfl) (fun _ => rfl)
    (fun node has => ?_) (fun b away => ?_) fun _ _ _ known => known
  · have counted := sound.counts.refs a node has
    rw [oneMore, if_pos rfl] at counted
    change node.refctr - 1 = (if node.nlookup = 0 then 0 else 1) + f.children a + holds a
    omega
  · rw [oneMore, if_neg away, Nat.add_zero]

/-- Dropping a reference of many only counts. -/
theorem pruned_dropOne (tree : Tree f) (has : f.nodes a = some node)
    (others : node.refctr - 1 ≠ 0) : Pruned holds none f (f.modify a dropOne) := by
  have memory : ∀ b, ((f.modify a dropOne).nodes b).isSome = (f.nodes b).isSome := fun b => by
    by_cases here : b = a
    · rw [here, Fuse.nodes_modify_self, Option.isSome_map]
    · rw [Fuse.nodes_modify_of_ne f here]
  refine ⟨fun b node' has' => ?_, fun b node' has' gone => ?_,
    fun b => ⟨fun member => ⟨member, (Option.some_ne_none b).symm, ?_⟩, And.left⟩,
    rfl, rfl, rfl, rfl, rfl⟩
  · obtain ⟨first, had, same⟩ := nodes_modify_eq_some has'
    refine ⟨first, had, ?_⟩
    rw [if_neg (Option.some_ne_none b).symm, same]
    by_cases here : b = a
    · subst here
      obtain rfl := Option.some.inj (has.symm.trans had)
      rw [if_pos rfl]
      refine ⟨?_, rfl⟩
      change _ ↔ node.refctr - 1 = 0
      omega
    · rw [if_neg here]
      exact ⟨Iff.rfl, rfl⟩
  · have kept := memory b
    rw [has', gone] at kept
    cases kept
  · rw [memory]
    obtain ⟨node', _, _, has', _⟩ := tree.exists_parent member
    rw [has']
    rfl

/-- A node that is freed with its last reference is pruned. -/
theorem pruned_freed (sound : Sound pending (oneMore holds a) f) (has : f.nodes a = some node)
    (last : node.refctr - 1 = 0) {c : Fuse} (pruned : Pruned holds (some a) (f.modify a dropOne) c)
    (ids : Table Nat) : Pruned holds none f (Fuse.freeNode { c with idTable := ids } a) := by
  have counted := sound.counts.refs a node has
  rw [oneMore, if_pos rfl] at counted
  have dropped : (f.modify a dropOne).nodes a = some (dropOne node) := by
    rw [Fuse.nodes_modify_self, has]
    rfl
  have unlocked := treelock_eq_zero (sound_dropOne sound) dropped last
  refine ⟨fun b node' has' => ?_, fun b node' has' gone => ?_, fun b => ?_, pruned.uses,
    pruned.brk, pruned.ctr, pruned.generation, pruned.hidectr⟩
  · rw [nodes_freed] at has'
    split at has'
    · cases has'
    · rename_i away
      obtain ⟨middle, had, zero, same⟩ := pruned.same b node' has'
      rw [Fuse.nodes_modify_of_ne f away] at had
      rw [if_neg fun here => away (Option.some.inj here).symm] at same
      exact ⟨middle, had, zero, by rw [if_neg (Option.some_ne_none b).symm]; exact same⟩
  · rw [nodes_freed] at gone
    split at gone
    · rename_i here
      subst here
      obtain rfl := Option.some.inj (has.symm.trans has')
      refine ⟨?_, unlocked, by omega, by omega⟩
      by_contra known
      rw [if_neg known] at counted
      omega
    · rename_i away
      exact pruned.lost b node' (by rw [Fuse.nodes_modify_of_ne f away, has']) gone
  · have before := pruned.named b
    rw [nodes_freed]
    constructor
    · intro member
      obtain ⟨old, apart, inMemory⟩ := before.mp member
      exact ⟨old, (Option.some_ne_none b).symm,
        by rwa [if_neg fun here => apart (congrArg some here.symm)]⟩
    · rintro ⟨old, -, inMemory⟩
      by_cases here : b = a
      · rw [if_pos here] at inMemory
        cases inMemory
      · rw [if_neg here] at inMemory
        exact before.mpr ⟨old, fun equal => here (Option.some.inj equal).symm, inMemory⟩

/-- Dropping a reference never fails, whatever is deleted with it. -/
theorem dropsBelow_unrefNodeWithin (depth : Nat) :
    DropsBelow (Fuse.unrefNodeWithin depth) depth := by
  induction depth with
  | zero => exact fun f a holds pending _ _ _ few => absurd few (Nat.not_lt_zero _)
  | succ depth ih =>
      intro f a holds pending sound inMemory upward few
      obtain ⟨node, has⟩ := exists_node inMemory
      have counted := sound.counts.refs a node has
      rw [oneMore, if_pos rfl] at counted
      have referred : node.refctr ≠ 0 := by omega
      have dropped : (f.modify a dropOne).nodes a = some (dropOne node) := by
        rw [Fuse.nodes_modify_self, has]
        rfl
      have soundDropped := sound_dropOne sound
      by_cases last : node.refctr - 1 = 0
      · have fresh : a ∉ pending := fun old => sound.tree.not_below_self (upward a old)
        have sameParents : (f.modify a dropOne).parentOf = f.parentOf :=
          funext (Fuse.bind_modify f Node.parent fun _ => rfl)
        have below : ∀ b ∈ pending, (f.modify a dropOne).Below b a := by
          rw [Fuse.Below, sameParents]
          exact upward
        have drops : DropsBelow (Fuse.unrefNodeWithin depth)
            (Multiset.card (f.modify a dropOne).nameTable.content) :=
          fun g b held aside soundg known above fewer =>
            ih g b held aside soundg known above (fewer.trans_le (Nat.le_of_lt_succ few))
        obtain ⟨c, ids, deleted, soundFreed, pruned⟩ :=
          deleteNodeBy_spec drops soundDropped dropped fresh below last
        refine ⟨_, ?_, soundFreed, pruned_freed sound has last pruned ids⟩
        rw [← deleted]
        simp only [Fuse.unrefNodeWithin, has, Option.bind_eq_bind, Option.bind_some, referred,
          last, if_true, if_false]
        rfl
      · refine ⟨_, ?_, soundDropped, pruned_dropOne sound.tree has last⟩
        simp only [Fuse.unrefNodeWithin, has, Option.bind_eq_bind, Option.bind_some, referred,
          last, if_false]
        rfl

theorem dropsBelow_unrefNode (bound : Nat) : DropsBelow Fuse.unrefNode bound :=
  fun f a holds pending sound known upward _ => dropsBelow_unrefNodeWithin _ f a holds pending
    sound known upward (Nat.lt_succ_of_le sound.settled.uses)

/-- Dropping a reference that is held succeeds. -/
theorem unrefNode_spec (sound : Sound ∅ (oneMore holds a) f)
    (inMemory : (f.nodeidOf a).isSome = true) :
    ∃ f', f.unrefNode a = some f' ∧ Sound ∅ holds f' ∧ Pruned holds none f f' :=
  dropsBelow_unrefNode (f.nameTable.use + 1) f a holds ∅ sound inMemory
    (fun _ none => absurd none (Set.notMem_empty _)) (Nat.lt_succ_of_le sound.settled.uses)

/-- Taking the name of a node away succeeds, as long as the node stays in memory and its
parent is not kept by the lock of the node. -/
theorem unhashName_spec (sound : Sound ∅ holds f) (has : f.nodes a = some node)
    (apart : a ≠ rootNode) (stays : node.nlookup = 0 → node.treelock = 0 → node.refctr = 0)
    (spared : node.treelock ≠ 0 → ∀ parent above, node.parent = some parent →
      f.nodes parent = some above → 0 < above.nlookup) :
    ∃ f', f.unhashName a = some f' ∧ Sound ∅ holds f' ∧ Pruned holds (some a) f f' :=
  unhashNameBy_spec (dropsBelow_unrefNode _) sound has (Set.notMem_empty a)
    (fun _ none => absurd none (Set.notMem_empty _)) apart stays spared

end Names

end Libfuse

end NosqlFS
