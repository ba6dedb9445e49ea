import NosqlFS.Libfuse.Renaming

/-!
# Finding a node

A node that is found is looked up once more.  If no node has the name, a new one gets it,
with a number that no other node has.
-/

namespace NosqlFS

namespace Libfuse

open LinearHash LinearHash.Table Text

/-- What finding a node does: all nodes stay as they are, the one that is found is looked up
once more, and it may be new. -/
structure Grown (found : Option Nat) (f f' : Fuse) : Prop where
  old : ∀ b node, f.nodes b = some node → ∃ node', f'.nodes b = some node' ∧
    node'.nodeid = node.nodeid ∧ node'.generation = node.generation ∧
    node'.parent = node.parent ∧ node'.name = node.name ∧ node'.treelock = node.treelock ∧
    node'.nlookup = node.nlookup + if found = some b then 1 else 0
  new : ∀ b node', f'.nodes b = some node' → f.nodes b = none → found = some b ∧
    node'.nlookup = 1 ∧ node'.treelock = 0 ∧ node'.nodeid = f'.ctr ∧
    node'.generation = f'.generation
  counting : f'.Counting
  stamp : ∃ skipped, skipped ≤ f.idTable.use + 3 ∧ f'.stamp = (f.stamp + skipped) % 2 ^ 64 ∧
    (skipped = 0 → ∀ b, f.nodes b = none → f'.nodes b = none)

section Find

variable {f : Fuse} {holds : Nat → Nat} {a parent parentid nodeid generation : Nat} {name : Bytes}
  {allocs : Allocs} {granted : Bool}

theorem stamp_lt (counting : f.Counting) : f.stamp = (f.stamp + 0) % 2 ^ 64 := by
  obtain ⟨ctr, generation⟩ := counting
  unfold Fuse.stamp
  omega

theorem grown_incNlookup (counting : f.Counting) : Grown (some a) f (f.incNlookup a) := by
  refine ⟨fun b node has => ?_, fun b node' has' none => ?_,
    ⟨counting.ctr, counting.generation⟩, 0, Nat.zero_le _, show f.stamp = _ from stamp_lt counting,
    fun _ b none => ?_⟩
  · by_cases here : b = a
    · subst here
      refine ⟨lookedUp node, ?_, rfl, rfl, rfl, rfl, rfl, by rw [if_pos rfl]; rfl⟩
      change (f.modify b lookedUp).nodes b = _
      rw [Fuse.nodes_modify_self, has]
      rfl
    · refine ⟨node, ?_, rfl, rfl, rfl, rfl, rfl, ?_⟩
      · rw [Fuse.incNlookup, Fuse.nodes_modify_of_ne f here, has]
      · rw [if_neg fun same => here (Option.some.inj same).symm]
        rfl
  · obtain ⟨node, has, -⟩ := nodes_modify_eq_some has'
    rw [none] at has
    cases has
  · by_contra gained
    obtain ⟨node', has'⟩ := Option.ne_none_iff_exists'.mp gained
    obtain ⟨node, has, -⟩ := nodes_modify_eq_some has'
    rw [none] at has
    cases has

theorem lookupNode_incNlookup : (f.incNlookup a).lookupNode = f.lookupNode :=
  @lookupNode_modify f a lookedUp (fun _ => rfl) (fun _ => rfl) (fun _ => rfl)

/-- A new node does not hide the others. -/
theorem getNode_withNode (tree : Tree f) (numbered : f.nodeidOf parent = some parentid) :
    (withNode f nodeid generation).getNode parentid = some parent := by
  have old : ∀ b, b ∈ f.idTable.content → b ≠ f.brk := fun b member =>
    tree.ne_brk ((tree.idContent b).mp member)
  have numbers : ∀ b, b ≠ f.brk → (withNode f nodeid generation).nodeidOf b = f.nodeidOf b :=
    fun b => nodeidOf_withNode_of_ne
  have member : parent ∈ f.idTable.content := (tree.idContent parent).mpr (by rw [numbered]; rfl)
  have wf : f.idTable.Wf nodeTableMinSize (withNode f nodeid generation).idHashOf :=
    tree.idWf.congr fun b member => by
      rw [Fuse.idHashOf, numbers b (old b member), Fuse.idHashOf]
  refine (wf.find_eq_some_iff (fun b _ answers => ?_) fun b first c second answers others => ?_).mpr
    ⟨member, ?_⟩
  · rw [decide_eq_true_eq] at answers
    rw [Fuse.idHashOf, answers, Option.getD_some]
  · rw [decide_eq_true_eq, numbers b (old b first)] at answers
    rw [decide_eq_true_eq, numbers c (old c second)] at others
    exact tree.idSingle b c parentid answers others
  · rw [decide_eq_true_eq, numbers parent (old parent member), numbered]

/-- The table after a new node has been named does not depend on when it got into the table
of numbers. -/
theorem hashId_giveName : (giveName (withNode f nodeid generation) granted f.brk parent name).hashId
    ⟨true, true, granted⟩ f.brk =
      giveName (register f granted nodeid generation) granted f.brk parent name := by
  have ids : (giveName (withNode f nodeid generation) granted f.brk parent name).idHashOf =
      (withNode f nodeid generation).idHashOf := by
    funext b
    have same : (giveName (withNode f nodeid generation) granted f.brk parent name).nodeidOf =
        (withNode f nodeid generation).nodeidOf := nodeidOf_labelled
    rw [Fuse.idHashOf, Fuse.idHashOf, same]
  unfold Fuse.hashId
  rw [ids]
  rfl

/-- Nothing but the counters has changed. -/
theorem steady_counters (steady : Steady holds f) {f' : Fuse} (nodes : f'.nodes = f.nodes)
    (idTable : f'.idTable = f.idTable) (nameTable : f'.nameTable = f.nameTable)
    (brk : f.brk ≤ f'.brk) : Steady holds f' := by
  obtain ⟨⟨tree, counts, keeps, settled⟩, alive⟩ := steady
  obtain ⟨names, ids, nodes', brk', ctr, generation, hidectr⟩ := f'
  obtain rfl : nodes' = f.nodes := nodes
  obtain rfl : ids = f.idTable := idTable
  obtain rfl : names = f.nameTable := nameTable
  exact ⟨⟨{ tree with fresh := fun a has => (tree.fresh a has).trans_le brk },
    ⟨counts.refs, counts.rootKnown⟩, keeps, ⟨settled.named, settled.nameless, settled.uses⟩⟩, alive⟩

/-- A node with a parent is in the table of names. -/
theorem isNamed_of_parentOf (steady : Steady holds f) (above : f.parentOf a = some parent) :
    f.IsNamed a := by
  obtain ⟨node, has, on⟩ := Option.bind_eq_some_iff.mp above
  refine steady.sound.settled.named a node has (Set.notMem_empty a) ?_ ?_
  · rintro rfl
    rw [steady.sound.tree.root.2.1] at above
    cases above
  · by_contra nameless
    rw [steady.sound.settled.nameless a node has (Option.not_isSome_iff_eq_none.mp nameless)] at on
    cases on

theorem nameable_register (steady : Steady holds f) (numbered : f.nodeidOf parent = some parentid)
    (absent : f.lookupNode parentid name = none) :
    Nameable (register f granted nodeid generation) f.brk parent name := by
  have tree := steady.sound.tree
  have old : parent ≠ f.brk := tree.ne_brk (by rw [numbered]; rfl)
  have parents : (register f granted nodeid generation).parentOf = f.parentOf :=
    tree.parentOf_withNode
  have names : (register f granted nodeid generation).nameOf = f.nameOf := tree.nameOf_withNode
  refine ⟨⟨_, nodes_withNode_self, rfl⟩, ?_, ?_, old, fun below => ?_, fun b member on => ?_⟩
  · exact (tree.ne_brk (by rw [tree.root.1]; rfl) : rootNode ≠ f.brk).symm
  · rw [show (register f granted nodeid generation).nodeidOf parent = _ from
      nodeidOf_withNode_of_ne old, numbered]
    rfl
  · obtain ⟨child, -, above⟩ := Relation.TransGen.tail'_iff.mp below
    rw [parents] at above
    obtain ⟨node, up, upper, has, on, hasUpper⟩ :=
      tree.exists_parent (isNamed_of_parentOf steady above)
    rw [parentOf_eq has, on] at above
    exact tree.ne_brk (nodeidOf_isSome hasUpper) (Option.some.inj above)
  · rw [parents] at on
    rw [names]
    exact free_of_lookupNode tree numbered absent member on

/-- Nothing has changed but the counters, and nothing was found. -/
theorem grown_none {f' : Fuse} (nodes : f'.nodes = f.nodes)
    (counting : f'.Counting) {skipped : Nat} (few : skipped ≤ f.idTable.use + 3)
    (stamp : f'.stamp = (f.stamp + skipped) % 2 ^ 64) : Grown none f f' := by
  refine ⟨fun b node has => ?_, fun b node' has none => ?_, counting, skipped, few, stamp,
    fun _ b none => by rw [nodes, none]⟩
  · exact ⟨node, by rw [nodes, has], rfl, rfl, rfl, rfl, rfl, by
      rw [if_neg (Option.some_ne_none b).symm]
      rfl⟩
  · rw [nodes, none] at has
    cases has

/-- All nodes are as before but for the new one. -/
theorem grown_giveName (tree : Tree f) (apart : parent ≠ f.brk)
    (counting : nodeid < 2 ^ 32 ∧ generation < 2 ^ 32) {skipped : Nat}
    (later : 0 < skipped) (few : skipped ≤ f.idTable.use + 3)
    (stamp : generation * 2 ^ 32 + nodeid = (f.stamp + skipped) % 2 ^ 64) :
    Grown (some f.brk) f
      ((giveName (register f granted nodeid generation) granted f.brk parent name).incNlookup
        f.brk) := by
  set g := giveName (register f granted nodeid generation) granted f.brk parent name with given
  have nodes : ∀ b, g.nodes b = ((withNode f nodeid generation).nodes b).map
      (relabelled f.brk parent name b) := nodes_labelled
  refine ⟨fun b node has => ?_, fun b node' has' none => ?_, ⟨counting.1, counting.2⟩, skipped,
    few, stamp, fun wrong => absurd wrong later.ne'⟩
  · have old : b ≠ f.brk := tree.ne_brk (nodeidOf_isSome has)
    refine ⟨relabelled f.brk parent name b node, ?_, ?_⟩
    · rw [Fuse.incNlookup, Fuse.nodes_modify_of_ne g old, nodes, nodes_withNode_of_ne old, has]
      rfl
    · obtain ⟨sameParent, sameName⟩ := @relabelled_names f.brk parent name node b old
      obtain ⟨sameLookups, sameLock, -⟩ := @relabelled_counters f.brk parent name node b
      have same : (relabelled f.brk parent name b node).nodeid = node.nodeid ∧
          (relabelled f.brk parent name b node).generation = node.generation := by
        unfold relabelled
        split <;> split <;> exact ⟨rfl, rfl⟩
      refine ⟨same.1, same.2, sameParent, sameName, sameLock, ?_⟩
      rw [sameLookups, if_neg fun here => old (Option.some.inj here).symm]
      rfl
  · obtain ⟨before, had, rfl⟩ := nodes_modify_eq_some has'
    rw [nodes] at had
    by_cases here : b = f.brk
    · subst here
      rw [nodes_withNode_self, Option.map_some, relabelled, if_pos rfl, if_neg apart.symm] at had
      obtain rfl := Option.some.inj had
      rw [if_pos rfl]
      exact ⟨rfl, rfl, rfl, rfl, rfl⟩
    · rw [nodes_withNode_of_ne here, none] at had
      cases had

theorem alive_giveName (steady : Steady holds f) (b : Nat) (node' : Node)
    (has' : ((giveName (register f granted nodeid generation) granted f.brk parent name).incNlookup
      f.brk).nodes b = some node') : node'.refctr ≠ 0 := by
  obtain ⟨middle, had, rfl⟩ := nodes_modify_eq_some has'
  obtain ⟨before, hasBefore, rfl⟩ := Option.map_eq_some_iff.mp ((nodes_labelled b).symm.trans had)
  have counted := (@relabelled_counters f.brk parent name before b).2.2
  by_cases here : b = f.brk
  · have unknown : (relabelled f.brk parent name b before).nlookup = 0 := by
      subst here
      rw [relabelled_counters.1]
      obtain rfl := Option.some.inj (nodes_withNode_self.symm.trans hasBefore)
      rfl
    rw [if_pos here]
    change (if (relabelled f.brk parent name b before).nlookup = 0
      then (relabelled f.brk parent name b before).refctr + 1
      else (relabelled f.brk parent name b before).refctr) ≠ 0
    rw [if_pos unknown]
    exact Nat.succ_ne_zero _
  · rw [if_neg here, counted]
    have old : f.nodes b = some before := (nodes_withNode_of_ne here).symm.trans hasBefore
    have alive := steady.alive b before old
    omega

/-- What was found before is found again. -/
theorem lookupNode_of_grown {holds' : Nat → Nat} {g : Fuse} {found : Option Nat} {b : Nat}
    (grown : Grown found g f) (steady : Steady holds g) (steady' : Steady holds' f)
    (before : g.lookupNode parentid name = some b) : f.lookupNode parentid name = some b := by
  obtain ⟨member, parent, above, numbered, called⟩ :=
    steady.sound.tree.lookupNode_eq_some_iff.mp before
  obtain ⟨node, has, on⟩ := Option.bind_eq_some_iff.mp above
  obtain ⟨node', has', -, -, sameParent, sameName, -⟩ := grown.old b node has
  obtain ⟨aboveNode, hasAbove, number⟩ := Option.map_eq_some_iff.mp numbered
  obtain ⟨aboveNode', hasAbove', sameNumber, -⟩ := grown.old parent aboveNode hasAbove
  have up : f.parentOf b = some parent := by rw [parentOf_eq has', sameParent, on]
  refine steady'.sound.tree.lookupNode_eq_some_iff.mpr
    ⟨isNamed_of_parentOf steady' up, parent, up, ?_, ?_⟩
  · rw [Fuse.nodeidOf, hasAbove', Option.map_some, sameNumber, number]
  · rw [← called, Fuse.nameOf, Fuse.nameOf, has, has']
    exact sameName

/-- What is found was found before, or it is new. -/
theorem of_lookupNode_grown {g : Fuse} {found : Option Nat} {b : Nat} (grown : Grown found g f)
    (steady : Steady holds g) (tree : Tree f) (again : f.lookupNode parentid name = some b) :
    g.lookupNode parentid name = some b ∨ g.nodes b = none ∧ found = some b := by
  obtain ⟨-, parent, above, numbered, called⟩ := tree.lookupNode_eq_some_iff.mp again
  obtain ⟨node', has', on⟩ := Option.bind_eq_some_iff.mp above
  cases had : g.nodes b with
  | none => exact .inr ⟨rfl, (grown.new b node' has' had).1⟩
  | some node =>
      obtain ⟨_, has'', -, -, sameParent, sameName, -⟩ := grown.old b node had
      obtain rfl := Option.some.inj (has'.symm.trans has'')
      have up : g.parentOf b = some parent := by rw [parentOf_eq had, ← sameParent, on]
      have member := isNamed_of_parentOf steady up
      refine .inl (steady.sound.tree.lookupNode_eq_some_iff.mpr ⟨member, parent, up, ?_, ?_⟩)
      · obtain ⟨_, parent', aboveNode, first, on', hasAbove⟩ :=
          steady.sound.tree.exists_parent member
        rw [parentOf_eq first, on'] at up
        obtain rfl := Option.some.inj up
        obtain ⟨_, hasAbove', same, -⟩ := grown.old parent' aboveNode hasAbove
        rw [Fuse.nodeidOf, hasAbove', Option.map_some, same] at numbered
        rw [Fuse.nodeidOf, hasAbove, ← numbered]
        rfl
      · rw [← called, Fuse.nameOf, Fuse.nameOf, had, has']
        exact sameName.symm

/-- Only the name that is looked for is found otherwise. -/
theorem Grown.names {holds' : Nat → Nat} {g : Fuse} {found : Option Nat} {key : Nat × Bytes}
    (grown : Grown found g f) (steady : Steady holds g) (steady' : Steady holds' f)
    (named : ∀ a, found = some a → f.names key = some a)
    (absent : found = none → g.names key = none) : f.names = Function.update g.names key found := by
  funext key'
  rw [Function.update_apply]
  refine Option.ext fun x => ⟨fun again => ?_, fun before => ?_⟩
  · rcases of_lookupNode_grown grown steady steady'.sound.tree again with first | ⟨-, here⟩
    · split
      · rename_i same
        rw [same] at again first
        cases result : found with
        | none => exact absurd ((absent result).symm.trans first) (Option.some_ne_none x).symm
        | some a => exact (named a result).symm.trans again
      · exact first
    · rw [if_pos (names_injective steady'.sound.tree again (named x here))]
      exact here
  · split at before
    · rename_i same
      rw [same]
      exact named x before
    · exact lookupNode_of_grown grown steady steady' before

/-- A new node gets the name, unless memory is short. -/
theorem makeNode_spec (steady : Steady holds f) (counting : f.Counting)
    (room : f.idTable.use + 3 ≤ 2 ^ 32) (numbered : f.nodeidOf parent = some parentid)
    (absent : f.lookupNode parentid name = none) (unheld : holds f.brk = 0) :
    ∃ found f', f.makeNode allocs parentid name = some (found, f') ∧ Steady holds f' ∧
      Grown found f f' ∧ (∀ a, found = some a → f'.names (parentid, name) = some a) ∧
      (found = none ↔ allocs.node = false ∨ allocs.Short name) := by
  have tree := steady.sound.tree
  unfold Fuse.makeNode
  by_cases short : allocs.node = false
  · rw [if_pos short]
    exact ⟨none, f, rfl, steady, grown_none rfl counting (Nat.zero_le _) (stamp_lt counting),
      (fun _ wrong => by cases wrong), fun _ => .inl short, fun _ => rfl⟩
  · obtain ⟨nodeid, generation, skipped, next, positive, known, unused, small, stamp, later, few⟩ :=
      Fuse.nextId_spec tree counting room
    have found := @getNode_withNode f parent parentid nodeid generation tree numbered
    have bound : nodeid < 2 ^ 32 := known.trans (by decide)
    rw [if_neg short, next]
    have hashed : (withNode f nodeid generation).hashName allocs f.brk parentid name =
        if inlineNameSize ≤ name.length ∧ allocs.name = false then
          some (false, (withNode f nodeid generation).modify f.brk fun node =>
            { node with name := none })
        else some (true, giveName (withNode f nodeid generation) allocs.table f.brk parent name) := by
      unfold Fuse.hashName
      rw [found]
      rfl
    change ∃ found f', (do
      let made ← (withNode f nodeid generation).hashName allocs f.brk parentid name
      if made.1 then some (some f.brk, (made.2.hashId allocs f.brk).incNlookup f.brk)
      else some (none, made.2.freeNode f.brk)) = some (found, f') ∧ _
    rw [hashed]
    by_cases long : inlineNameSize ≤ name.length ∧ allocs.name = false
    · rw [if_pos long]
      set freed := ((withNode f nodeid generation).modify f.brk fun node =>
        { node with name := none }).freeNode f.brk with gone
      have nodes : freed.nodes = f.nodes := by
        funext b
        by_cases here : b = f.brk
        · rw [here, tree.nodes_brk, gone]
          exact Function.update_self ..
        · rw [gone, show (Fuse.freeNode _ f.brk).nodes b = _ from Function.update_of_ne here ..,
            Fuse.nodes_modify_of_ne _ here, nodes_withNode_of_ne here]
      have counted : freed.Counting := ⟨bound, small⟩
      have grown : Grown none f freed := grown_none nodes counted few (by
        rw [← stamp]
        rfl)
      exact ⟨none, freed, rfl, steady_counters steady nodes rfl rfl (Nat.le_succ f.brk), grown,
        (fun _ wrong => by cases wrong), fun _ => .inr long, fun _ => rfl⟩
    · rw [if_neg long]
      have nameable := @nameable_register f holds parent parentid nodeid generation name
        allocs.table steady numbered absent
      have sound := sound_giveName
        (@sound_register f nodeid generation holds steady.sound allocs.table unheld positive known
          unused) nameable allocs.table
      have same : (giveName (withNode f nodeid generation) allocs.table f.brk parent name).hashId
          allocs f.brk = _ := hashId_giveName
      have apart : parent ≠ f.brk := tree.ne_brk (by rw [numbered]; rfl)
      refine ⟨some f.brk, _, rfl, ?_, ?_, fun a here => ?_, (fun wrong => by cases wrong),
        fun wrong => absurd wrong (not_or.mpr ⟨short, long⟩)⟩
      · rw [same]
        exact ⟨sound_incNlookup sound, alive_giveName steady⟩
      · rw [same]
        exact grown_giveName tree apart ⟨bound, small⟩ later few stamp
      · rw [same, Fuse.names, lookupNode_incNlookup, ← Option.some.inj here]
        refine lookupNode_giveName (tree.registered allocs.table positive known unused) nameable
          allocs.table ?_
        rw [← numbered]
        exact nodeidOf_withNode_of_ne apart

/-- Finding a node below a directory in memory succeeds, unless memory is short or the
numbers have run out. -/
theorem findNode_spec {name : Option Bytes} (steady : Steady holds f) (counting : f.Counting)
    (room : f.idTable.use + 3 ≤ 2 ^ 32) (numbered : f.nodeidOf parent = some parentid)
    (unheld : holds f.brk = 0) :
    ∃ found f', f.findNode allocs parentid name = some (found, f') ∧ Steady holds f' ∧
      Grown found f f' ∧
      (f'.names = name.elim f.names fun n => Function.update f.names (parentid, n) found) ∧
      ∀ n, name = some n → f.lookupNode parentid n = none →
        (found = none ↔ allocs.node = false ∨ allocs.Short n) := by
  have again : ∀ a, (f.incNlookup a).names = f.names := fun a => funext fun key =>
    congrFun (congrFun lookupNode_incNlookup key.1) key.2
  unfold Fuse.findNode
  cases name with
  | none =>
      have found := steady.sound.tree.getNode_eq_some_iff.mpr numbered
      simp only [found, Option.bind_eq_bind, Option.bind_some]
      exact ⟨some parent, f.incNlookup parent, rfl, steady_incNlookup steady,
        grown_incNlookup counting, again parent, fun _ wrong => by cases wrong⟩
  | some name =>
      cases found : f.lookupNode parentid name with
      | none =>
          obtain ⟨made, f', result, steady', grown, named, refused⟩ :=
            @makeNode_spec f holds parent parentid name allocs steady counting room numbered found
              unheld
          simp only [found]
          exact ⟨made, f', result, steady', grown, grown.names steady steady' named fun _ => found,
            fun _ same _ => Option.some.inj same ▸ refused⟩
      | some a =>
          simp only [found]
          refine ⟨some a, f.incNlookup a, rfl, steady_incNlookup steady, grown_incNlookup counting,
            (again a).trans ?_, fun n same absent => ?_⟩
          · rw [← found]
            exact (Function.update_eq_self _ _).symm
          · rw [← Option.some.inj same, found] at absent
            cases absent

end Find

/-! ## The first node -/

/-- The root as `fuse_new` leaves it. -/
def topNode : Node := ⟨fuseRootId, 0, 1, none, some (ascii "/"), 1, 0, false, 0⟩

theorem nodes_start (table : Bool) (a : Nat) :
    (Fuse.start table).nodes a = if a = rootNode then some topNode else none := by
  change Function.update (Function.update (fun _ => none) 0 (some _)) 0
    (Option.map _ (Function.update (fun _ => none) 0 (some _) 0)) a = _
  by_cases here : a = 0
  · subst here
    rw [Function.update_self, Function.update_self]
    rfl
  · rw [Function.update_of_ne here, Function.update_of_ne here, if_neg (show a ≠ rootNode from here)]

/-- A table of only the root is steady. -/
theorem steady_of_top {f : Fuse} {granted : Bool}
    (nodes : ∀ a, f.nodes a = if a = rootNode then some topNode else none)
    (names : f.nameTable = Table.empty nodeTableMinSize)
    (ids : f.idTable = (Table.empty nodeTableMinSize).insert f.idHashOf granted rootNode)
    (brk : f.brk = 1) : Steady (fun _ => 0) f := by
  have wf : ∀ hashOf, (Table.empty nodeTableMinSize : Table Nat).Wf nodeTableMinSize hashOf :=
    wf_empty (Nat.succ_pos _) ⟨4096, rfl⟩
  have joined := joined_insert (wf f.idHashOf) granted rootNode
  rw [← ids] at joined
  have content : f.idTable.content = rootNode ::ₘ 0 := by rw [joined.content, content_empty]
  have none_named : f.nameTable.content = 0 := by rw [names, content_empty]
  have unnamed : ∀ a, ¬ f.IsNamed a := fun a member => by
    rw [Fuse.IsNamed, none_named] at member
    exact Multiset.notMem_zero a member
  have top : f.nodes rootNode = some topNode := by rw [nodes, if_pos rfl]
  have only : ∀ a node, f.nodes a = some node → a = rootNode ∧ node = topNode := by
    intro a node has
    rw [nodes] at has
    split at has
    · rename_i here
      exact ⟨here, (Option.some.inj has).symm⟩
    · cases has
  have number : ∀ a nodeid, f.nodeidOf a = some nodeid → a = rootNode ∧ nodeid = fuseRootId := by
    intro a nodeid numbered
    obtain ⟨node, has, rfl⟩ := Option.map_eq_some_iff.mp numbered
    obtain ⟨rfl, rfl⟩ := only a node has
    exact ⟨rfl, rfl⟩
  have numbered : f.nodeidOf rootNode = some fuseRootId := by rw [Fuse.nodeidOf, top]; rfl
  have parentless : ∀ a, f.parentOf a = none := fun a => by
    by_contra above
    obtain ⟨parent, above⟩ := Option.ne_none_iff_exists'.mp above
    obtain ⟨node, has, on⟩ := Option.bind_eq_some_iff.mp above
    obtain ⟨rfl, rfl⟩ := only a node has
    cases on
  have childless : ∀ a, f.children a = 0 := fun a => by
    rw [Fuse.children, none_named]
    rfl
  refine ⟨⟨{
    idWf := joined.wf
    idContent := fun a => by
      rw [content, Multiset.mem_cons]
      constructor
      · rintro (rfl | wrong)
        · rw [numbered]
          rfl
        · exact absurd wrong (Multiset.notMem_zero a)
      · intro has
        obtain ⟨nodeid, has⟩ := Option.isSome_iff_exists.mp has
        exact .inl (number a nodeid has).1
    idDistinct := by
      rw [content, Multiset.nodup_cons]
      exact ⟨Multiset.notMem_zero _, Multiset.nodup_zero⟩
    idUse := by
      rw [content, joined.use]
      rfl
    nameWf := by rw [names]; exact wf _
    nameDistinct := by rw [none_named]; exact Multiset.nodup_zero
    named := fun a member => absurd member (unnamed a)
    nameSingle := fun a _ member => absurd member (unnamed a)
    acyclic := ⟨fun _ => 0, fun a parent above => by rw [parentless] at above; cases above⟩
    idSingle := fun a b nodeid first second => by
      rw [(number a nodeid first).1, (number b nodeid second).1]
    idRange := fun a nodeid has => by
      rw [(number a nodeid has).2]
      decide
    root := ⟨numbered, parentless rootNode, unnamed rootNode⟩
    fresh := fun a has => by
      obtain ⟨nodeid, has⟩ := Option.isSome_iff_exists.mp has
      rw [(number a nodeid has).1, brk]
      decide }, ⟨?_, ?_⟩, ?_, ?_⟩, ?_⟩
  · intro a node has
    obtain ⟨rfl, rfl⟩ := only a node has
    rw [childless]
    rfl
  · intro node has
    rw [(only rootNode node has).2]
    decide
  · intro a node has locked
    rw [(only a node has).2] at locked
    exact absurd rfl locked
  · refine ⟨fun a node has _ away => absurd (only a node has).1 away, fun a node has none => ?_, ?_⟩
    · rw [(only a node has).2] at none
      cases none
    · rw [none_named]
      exact Nat.zero_le _
  · intro a node has
    rw [(only a node has).2]
    decide

theorem start_steady (table : Bool) : Steady (fun _ => 0) (Fuse.start table) :=
  @steady_of_top (Fuse.start table) table (nodes_start table) rfl rfl rfl

end Libfuse

end NosqlFS
