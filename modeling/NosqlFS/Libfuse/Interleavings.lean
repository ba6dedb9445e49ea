import NosqlFS.Libfuse.Protocol

/-!
# Every interleaving

Whatever the order in which the threads take their steps, every step that the kernel and
the operations may take succeeds, and it keeps what holds between two steps.
-/

namespace NosqlFS

namespace Libfuse

open LinearHash LinearHash.Table Text LockWord

/-! ## Numbers that stay -/

section Later

variable {f f' g : Fuse} {holds : Nat → Nat} {moved : Set Nat} {found : Option Nat}

/-- The number of a node, and how often the numbers had been used up when it got it. -/
def Node.stamp (node : Node) : Nat := node.generation * 2 ^ 32 + node.nodeid

/-- The nodes keep their numbers, and one that is new gets a later one. -/
def Later (f f' : Fuse) : Prop :=
  ∃ skipped ≤ 2 ^ 32, f'.stamp = (f.stamp + skipped) % 2 ^ 64 ∧
    ∀ b node', f'.nodes b = some node' → (∃ node, f.nodes b = some node ∧
      node'.nodeid = node.nodeid ∧ node'.generation = node.generation) ∨
      0 < skipped ∧ node'.stamp = f'.stamp

theorem later_of_back (counting : f.Counting) (ctr : f'.ctr = f.ctr)
    (generation : f'.generation = f.generation)
    (back : ∀ b node', f'.nodes b = some node' → ∃ node, f.nodes b = some node ∧
      node'.nodeid = node.nodeid ∧ node'.generation = node.generation) : Later f f' := by
  refine ⟨0, Nat.zero_le _, ?_, fun b node' has' => .inl (back b node' has')⟩
  rw [← stamp_lt counting, Fuse.stamp, ctr, generation]
  rfl

theorem Changed.later (changed : Changed holds moved f f') (counting : f.Counting) : Later f f' :=
  later_of_back counting changed.ctr changed.generation fun b node' has' => by
    obtain ⟨node, has, nodeid, generation, -⟩ := changed.back b node' has'
    exact ⟨node, has, nodeid, generation⟩

theorem Grown.later (grown : Grown found f f') (room : f.idTable.use + 3 ≤ 2 ^ 32) : Later f f' := by
  obtain ⟨skipped, few, stamp, none⟩ := grown.stamp
  refine ⟨skipped, few.trans room, stamp, fun b node' has' => ?_⟩
  cases had : f.nodes b with
  | none =>
      obtain ⟨-, -, -, nodeid, generation⟩ := grown.new b node' has' had
      refine .inr ⟨Nat.pos_of_ne_zero fun zero => ?_, ?_⟩
      · rw [none zero b had] at has'
        cases has'
      · rw [Node.stamp, nodeid, generation, Fuse.stamp]
  | some node =>
      obtain ⟨again, has'', nodeid, generation, -⟩ := grown.old b node had
      obtain rfl := Option.some.inj (has'.symm.trans has'')
      exact .inl ⟨node, rfl, nodeid, generation⟩

theorem later_relock {change : Nat → Int → Int} (counting : f.Counting) :
    Later f (relock f change) := by
  refine later_of_back counting rfl rfl fun b node' has' => ?_
  obtain ⟨node, has, rfl⟩ := Option.map_eq_some_iff.mp has'
  exact ⟨node, has, rfl, rfl⟩

theorem later_modify {a : Nat} {change : Node → Node} (counting : f.Counting)
    (nodeid : ∀ node, (change node).nodeid = node.nodeid)
    (generation : ∀ node, (change node).generation = node.generation)
    (changed : Changed holds moved (f.modify a change) f') : Later f f' := by
  refine later_of_back counting changed.ctr changed.generation fun b node' has' => ?_
  obtain ⟨middle, had, sameNodeid, sameGeneration, -⟩ := changed.back b node' has'
  obtain ⟨node, has, rfl⟩ := nodes_modify_eq_some had
  refine ⟨node, has, ?_, ?_⟩
  · rw [sameNodeid]
    split
    · exact nodeid node
    · rfl
  · rw [sameGeneration]
    split
    · exact generation node
    · rfl

end Later

namespace Session

/-! ## What a step does to the names -/

/-- What finding a name does to the names: a name that nothing has gets a new node, unless memory
is short. -/
inductive Entered (names : Nat × Bytes → Option Nat) (key : Nat × Bytes) (short : Prop)
    (isNew : Nat → Prop) : (Nat × Bytes → Option Nat) → Prop where
  | there : names key ≠ none → Entered names key short isNew names
  | noMemory : names key = none → short → Entered names key short isNew names
  | added {a : Nat} : names key = none → ¬ short → isNew a →
      Entered names key short isNew (Function.update names key (some a))

/-- The names of the nodes that are still in memory stay, and there are no others.  The nodes
that the kernel knows and those that are held stay in memory. -/
structure Fewer (s s' : Session) : Prop where
  names : ∀ key a, s'.fuse.names key = some a ↔
    s.fuse.names key = some a ∧ (s'.fuse.nodes a).isSome = true
  kept : ∀ a node, s.fuse.nodes a = some node →
    a = rootNode ∨ 0 < s'.owed node.nodeid ∨ a ∈ s'.dots → (s'.fuse.nodes a).isSome = true

/-- What a step does to the tree as a map from directories and names to nodes. -/
def Effect (s s' : Session) : Event → Prop
  | .find dir name allocs => name.elim (s'.fuse.names = s.fuse.names) fun n =>
      Entered s.fuse.names (dir, n) (allocs.node = false ∨ allocs.Short n)
        (fun a => s.fuse.nodes a = none ∧ (s'.fuse.nodes a).isSome = true) s'.fuse.names
  | .forget _ _ | .drop _ => Fewer s s'
  | .hold _ | .lock _ _ _ _ | .unlock _ => s'.fuse.names = s.fuse.names
  | .remove h => s'.fuse.names = Function.update s.fuse.names (h.nodeid, h.target) none
  | .rename old new allocs => ∃ err,
      s.fuse.renameNode allocs old.nodeid old.target new.nodeid new.target false =
        some (err, s'.fuse) ∧
      Renamed s.fuse.names (old.nodeid, old.target) (new.nodeid, new.target) false
        (allocs.Short new.target) err s'.fuse.names
  | .hide h name allocs => ∃ err,
      s.fuse.renameNode allocs h.nodeid h.target h.nodeid name true = some (err, s'.fuse) ∧
      Renamed s.fuse.names (h.nodeid, h.target) (h.nodeid, name) true (allocs.Short name) err
        s'.fuse.names
  | .exchange old new first second => ∃ err,
      s.fuse.exchangeNode first second old.nodeid old.target new.nodeid new.target =
        some (err, s'.fuse) ∧
      Exchanged s.fuse.names (old.nodeid, old.target) (new.nodeid, new.target)
        (first.Short new.target) (second.Short old.target) err s'.fuse.names

/-- What holds after a step. -/
structure Stepped (s s' : Session) (e : Event) : Prop where
  inv : Inv s'
  later : Later s.fuse s'.fuse
  effect : Effect s s' e

/-! ## Steps on the tree -/

section Tree

variable {s s' : Session} {f g : Fuse} {moved : Set Nat} {a : Nat} {holdings : List Holding}

/-- Only the references and the lookups of the nodes have changed, as the kernel counts
them. -/
structure Recounted (s s' : Session) (g : Fuse) : Prop where
  all : ∀ b, (s.fuse.nodes b).isSome = true → (g.nodes b).isSome = true
  back : ∀ b node', g.nodes b = some node' → ∃ node, s.fuse.nodes b = some node ∧
    node' = { node with refctr := node'.refctr, nlookup := node'.nlookup } ∧
    (b ≠ rootNode → node'.nlookup = s'.owed node.nodeid)
  root : ∀ node', g.nodes rootNode = some node' → node'.nlookup ≠ 0
  known : ∀ nodeid, 0 < s'.owed nodeid → 0 < s.owed nodeid
  locked : ∀ b node, s.fuse.nodes b = some node → node.treelock ≠ 0 → 0 < s.owed node.nodeid →
    0 < s'.owed node.nodeid

theorem Inv.recounted (inv : Inv s) (same : s'.owed = s.owed) : Recounted s s' s.fuse := by
  refine ⟨fun _ => id, fun b node has => ⟨node, has, rfl, fun apart => ?_⟩, fun node has => ?_,
    fun nodeid => ?_, fun b node _ _ => ?_⟩
  · rw [same]
    exact inv.owed b node has apart
  · exact (inv.steady.sound.counts.rootKnown node has).ne'
  · rw [same]
    exact id
  · rw [same]
    exact id

theorem Recounted.follows (recounted : Recounted s s' g)
    (changed : Changed (fun a => s'.dots.count a) moved g s'.fuse)
    (dots : ∀ a ∈ s'.dots, (s.fuse.nodes a).isSome = true) : Follows moved s s' := by
  have fields : ∀ b node', s'.fuse.nodes b = some node' → ∃ node, s.fuse.nodes b = some node ∧
      node'.nodeid = node.nodeid ∧ node'.treelock = node.treelock ∧
      (b ∉ moved → node'.parent = node.parent ∧ node'.name = node.name) ∧
      (b ≠ rootNode → node'.nlookup = s'.owed node.nodeid) := by
    intro b node' has'
    obtain ⟨middle, had, nodeid, -, nlookup, treelock, names⟩ := changed.back b node' has'
    obtain ⟨node, has, same, counted⟩ := recounted.back b middle had
    refine ⟨node, has, ?_, ?_, fun apart => ?_, fun apart => ?_⟩
    · rw [nodeid, same]
    · rw [treelock, same]
    · rw [(names apart).1, (names apart).2, same]
      exact ⟨rfl, rfl⟩
    · rw [nlookup]
      exact counted apart
  refine ⟨fun b node has needed => ?_, fun b node' has' => .inl ?_, fun a member => ?_,
    fun a node' has' apart => ?_, fun nodeid known => .inl (recounted.known nodeid known),
    recounted.locked⟩
  · obtain ⟨middle, had⟩ := Option.isSome_iff_exists.mp (recounted.all b (by rw [has]; rfl))
    obtain ⟨before, was, same, counted⟩ := recounted.back b middle had
    obtain rfl := Option.some.inj (has.symm.trans was)
    refine changed.kept b middle had ?_
    rcases needed with root | known | locked
    · exact .inl (recounted.root middle (root ▸ had))
    · by_cases root : b = rootNode
      · exact .inl (recounted.root middle (root ▸ had))
      · rw [counted root]
        exact .inl known.ne'
    · rw [same]
      exact .inr (.inl locked)
  · obtain ⟨node, has, nodeid, treelock, names, -⟩ := fields b node' has'
    exact ⟨node, has, nodeid, treelock, names⟩
  · obtain ⟨middle, had⟩ := Option.isSome_iff_exists.mp (recounted.all a (dots a member))
    exact changed.kept a middle had (.inr (.inr (List.count_pos_iff.mpr member).ne'))
  · obtain ⟨node, has, nodeid, -, -, counted⟩ := fields a node' has'
    rw [nodeid]
    exact counted apart

theorem Inv.dots_nodes (inv : Inv s) (member : a ∈ s.dots) : (s.fuse.nodes a).isSome = true := by
  obtain ⟨node, has⟩ := exists_node (inv.dots a member)
  rw [has]
  rfl

theorem counting_of_changed {holds : Nat → Nat} (counting : g.Counting)
    (changed : Changed holds moved g f) : f.Counting :=
  ⟨by rw [changed.ctr]; exact counting.ctr, by rw [changed.generation]; exact counting.generation⟩

/-- The invariant is kept if only what an operation may move has been moved. -/
theorem Inv.changed (inv : Inv s) (steady : Steady (fun a => s.dots.count a) f)
    (changed : Changed (fun a => s.dots.count a) moved s.fuse f)
    (still : ∀ b ∈ moved, 0 < writers s.holdings b) (within : holdings.Subperm s.holdings)
    {gained : Set (Nat × Bytes)} (names : NoNewNames gained s.fuse f)
    (quiet : ∀ h ∈ s.disarm holdings, h.armed = true → ∀ n, h.name = some n →
      (h.nodeid, n) ∉ gained) : Inv { s with fuse := f, holdings := s.disarm holdings } := by
  have recounted : Recounted s { s with fuse := f, holdings := s.disarm holdings } s.fuse :=
    inv.recounted rfl
  have follows := recounted.follows changed fun _ => inv.dots_nodes
  exact inv.follow follows steady (counting_of_changed inv.counting changed) still within rfl
    fun h member armed n x called found =>
      (names h.nodeid n x found).resolve_right (quiet h member armed n called)

end Tree

section Names

variable {s : Session} {h old new : Holding} {x target : Nat}

theorem Inv.target_written (inv : Inv s) (member : h ∈ s.holdings) (armed : h.armed = true) :
    h.name = some h.target ∧ ∀ x, s.fuse.lookupNode h.nodeid h.target = some x →
      h.wnode = some x := by
  obtain ⟨n, called, same⟩ := (inv.held h member).armed armed
  have target : h.target = n := by rw [Holding.target, called]; rfl
  rw [target]
  exact ⟨called, same⟩

theorem Inv.target_still (inv : Inv s) (member : h ∈ s.holdings) (armed : h.armed = true)
    (found : s.fuse.lookupNode h.nodeid h.target = some x) : 0 < writers s.holdings x :=
  writers_pos member ((inv.target_written member armed).2 x found)

/-- What an operation is about to move can be moved below the directories that are locked. -/
theorem Inv.target_movable (inv : Inv s) (member : h ∈ s.holdings) (armed : h.armed = true)
    (other : new ∈ s.holdings) (found : s.fuse.lookupNode h.nodeid h.target = some x)
    (numbered : s.fuse.nodeidOf target = some new.nodeid) : MovableTo s.fuse x target :=
  inv.movableTo member other ((inv.target_written member armed).2 x found)
    (inv.held h member).knows found numbered

theorem subperm_pair {holdings : List Holding} (first : old ∈ holdings)
    (second : new ∈ holdings.erase old) : [old, new].Subperm holdings := by
  have perm : holdings.Perm (old :: new :: (holdings.erase old).erase new) :=
    (List.perm_cons_erase first).trans ((List.perm_cons_erase second).cons old)
  exact (List.Sublist.cons_cons old (List.Sublist.cons_cons new
    (List.nil_sublist _))).subperm.trans perm.symm.subperm

/-- No operation that stays armed is about to change a name of one that no longer is. -/
theorem Inv.disarm_quiet {holdings : List Holding} (inv : Inv s)
    (within : holdings.Subperm s.holdings) (member : old ∈ holdings) (armed : old.armed = true)
    (other : h ∈ s.disarm holdings) (still : h.armed = true) {n : Bytes} (called : h.name = some n) :
    (h.nodeid, n) ≠ (old.nodeid, old.target) := by
  have single := (targets_disarm within).nodup_iff.mpr inv.single
  have apart := List.disjoint_of_nodup_append single
  have first : (old.nodeid, old.name) ∈ targets holdings :=
    List.mem_map.mpr ⟨old, List.mem_filter.mpr ⟨member, armed⟩, rfl⟩
  have second : (h.nodeid, h.name) ∈ targets (s.disarm holdings) :=
    List.mem_map.mpr ⟨h, List.mem_filter.mpr ⟨other, still⟩, rfl⟩
  intro same
  refine apart first ?_
  rw [(inv.target_written (within.subset member) armed).1]
  rw [called] at second
  obtain ⟨dir, name⟩ := Prod.mk.inj same
  rwa [dir, name] at second

theorem Inv.remove (inv : Inv s) (member : h ∈ s.holdings) (armed : h.armed = true) :
    ∃ s', s.exec (.remove h) = some s' ∧ Stepped s s' (.remove h) := by
  have within : [h].Subperm s.holdings := List.singleton_subperm_iff.mpr member
  obtain ⟨a, numbered, -⟩ := (inv.held h member).chain
  obtain ⟨f, removed, steady, cleared, effect⟩ := removeNode_spec inv.steady fun x found =>
    (inv.target_movable member armed member found numbered).movable
  refine ⟨{ s with fuse := f, holdings := s.disarm [h] }, ?_, ?_⟩
  · simp only [exec, removed, Option.bind_eq_bind, Option.bind_some]
    rfl
  · exact ⟨inv.changed steady cleared.changed
      (fun x found => inv.target_still member armed found) within
      (cleared.noNewNames inv.steady.sound.tree steady.sound.tree)
      fun _ _ _ _ _ => Set.notMem_empty _, cleared.changed.later inv.counting, effect⟩

theorem Inv.rename {allocs : Allocs} (inv : Inv s) (first : old ∈ s.holdings)
    (second : new ∈ s.holdings.erase old) (armed : old.armed = true) (armed' : new.armed = true) :
    ∃ s', s.exec (.rename old new allocs) = some s' ∧ Stepped s s' (.rename old new allocs) := by
  have within := subperm_pair first second
  have member : new ∈ s.holdings := List.mem_of_mem_erase second
  obtain ⟨target, dir⟩ := inv.knownDir (inv.held new member).knows
  obtain ⟨err, f, renamed, steady, changed, names, effect⟩ :=
    @renameNode_spec s.fuse _ old.nodeid new.nodeid target old.target new.target allocs inv.steady
      false dir (fun x found => inv.target_movable first armed member found dir.numbered)
      fun _ x found => (inv.target_movable member armed' member found dir.numbered).movable
  refine ⟨{ s with fuse := f, holdings := s.disarm [old, new] }, ?_, ?_⟩
  · simp only [exec, renamed, Option.bind_eq_bind, Option.bind_some]
    rfl
  · refine ⟨inv.changed steady changed ?_ within names fun h other still n called same => ?_,
      changed.later inv.counting, err, renamed, effect⟩
    · rintro x (found | ⟨-, found⟩)
      · exact inv.target_still first armed found
      · exact inv.target_still member armed' found
    · exact inv.disarm_quiet within (List.mem_cons_of_mem _ List.mem_cons_self) armed' other still
        called same

theorem Inv.hide {name : Bytes} {allocs : Allocs} (inv : Inv s) (member : h ∈ s.holdings)
    (armed : h.armed = true) (free : Quiet s.holdings h.nodeid name) :
    ∃ s', s.exec (.hide h name allocs) = some s' ∧ Stepped s s' (.hide h name allocs) := by
  obtain ⟨target, dir⟩ := inv.knownDir (inv.held h member).knows
  obtain ⟨err, f, renamed, steady, changed, names, effect⟩ :=
    @renameNode_spec s.fuse _ h.nodeid h.nodeid target h.target name allocs inv.steady true dir
      (fun x found => inv.target_movable member armed member found dir.numbered)
      fun wrong => by cases wrong
  have all : s.disarm [] = s.holdings := rfl
  refine ⟨{ s with fuse := f, holdings := s.disarm [] }, ?_, ?_⟩
  · simp only [exec, renamed, Option.bind_eq_bind, Option.bind_some]
    rfl
  · refine ⟨inv.changed steady changed ?_ List.nil_subperm names
      fun other was still n called same => ?_, changed.later inv.counting, err, renamed, effect⟩
    · rintro x (found | ⟨wrong, -⟩)
      · exact inv.target_still member armed found
      · cases wrong
    · obtain ⟨dir, rfl⟩ := Prod.mk.inj (Set.mem_singleton_iff.mp same)
      exact free other was still dir called

theorem Inv.exchange {allocs allocs' : Allocs} (inv : Inv s) (first : old ∈ s.holdings)
    (second : new ∈ s.holdings.erase old) (armed : old.armed = true) (armed' : new.armed = true) :
    ∃ s', s.exec (.exchange old new allocs allocs') = some s' ∧ Stepped s s' (.exchange old new allocs allocs') := by
  have within := subperm_pair first second
  have member : new ∈ s.holdings := List.mem_of_mem_erase second
  obtain ⟨source, olddir⟩ := inv.knownDir (inv.held old first).knows
  obtain ⟨target, newdir⟩ := inv.knownDir (inv.held new member).knows
  have apart : (old.nodeid, old.target) ≠ (new.nodeid, new.target) := by
    have single := (targets_disarm within).nodup_iff.mpr inv.single
    have pair := (List.nodup_append.mp single).1
    have both : targets [old, new] = [(old.nodeid, old.name), (new.nodeid, new.name)] := by
      rw [targets, List.filter_cons_of_pos armed, List.filter_cons_of_pos armed']
      rfl
    rw [both, (inv.target_written first armed).1, (inv.target_written member armed').1] at pair
    intro same
    obtain ⟨dir, name⟩ := Prod.mk.inj same
    rw [dir, name] at pair
    exact (List.nodup_cons.mp pair).1 List.mem_cons_self
  obtain ⟨err, f, exchanged, steady, changed, names, effect⟩ :=
    @exchangeNode_spec s.fuse _ old.nodeid new.nodeid source target old.target new.target allocs
      allocs' inv.steady olddir newdir apart
      (fun x found => ⟨inv.target_movable first armed first found olddir.numbered,
        inv.target_movable first armed member found newdir.numbered⟩)
      fun x found => ⟨inv.target_movable member armed' first found olddir.numbered,
        inv.target_movable member armed' member found newdir.numbered⟩
  refine ⟨{ s with fuse := f, holdings := s.disarm [old, new] }, ?_, ?_⟩
  · simp only [exec, exchanged, Option.bind_eq_bind, Option.bind_some]
    rfl
  · refine ⟨inv.changed steady changed ?_ within names fun h other still n called same => ?_,
      changed.later inv.counting, err, exchanged, effect⟩
    · rintro x (found | found)
      · exact inv.target_still first armed found
      · exact inv.target_still member armed' found
    · rcases same with here | here
      · exact inv.disarm_quiet within (List.mem_cons_of_mem _ List.mem_cons_self) armed' other still
          called here
      · exact inv.disarm_quiet within List.mem_cons_self armed other still called
          (Set.mem_singleton_iff.mp here)

end Names

section Counters

variable {s s' : Session} {f g : Fuse} {a nodeid n : Nat} {node : Node}

/-- The invariant is kept if only references and lookups are counted. -/
theorem Inv.uncounted (inv : Inv s) (recounted : Recounted s s' g)
    (steady : Steady (fun a => s'.dots.count a) s'.fuse)
    (changed : Changed (fun a => s'.dots.count a) ∅ g s'.fuse) (counting : g.Counting)
    (dots : ∀ a ∈ s'.dots, (s.fuse.nodes a).isSome = true) (same : s'.holdings = s.holdings) :
    Inv s' ∧ Fewer s s' := by
  have follows := recounted.follows changed dots
  have fields : ∀ x node', s'.fuse.nodes x = some node' → ∃ node, s.fuse.nodes x = some node ∧
      node'.nodeid = node.nodeid ∧ node'.parent = node.parent ∧ node'.name = node.name := by
    intro x node' has'
    rcases follows.back x node' has' with ⟨node, has, nodeid, -, names⟩ | ⟨new, -⟩
    · obtain ⟨parent, name⟩ := names (Set.notMem_empty x)
      exact ⟨node, has, nodeid, parent, name⟩
    · obtain ⟨middle, had, -⟩ := changed.back x node' has'
      obtain ⟨node, has, -⟩ := recounted.back x middle had
      rw [new] at has
      cases has
  have fewer : Fewer s s' := by
    refine ⟨fun key x => ⟨fun found => ?_, fun ⟨before, inMemory⟩ => ?_⟩,
      fun x node has needed => ?_⟩
    · obtain ⟨node', _, _, has', -⟩ := steady.sound.tree.exists_parent
        (steady.sound.tree.lookupNode_eq_some_iff.mp found).1
      refine ⟨(follows.lookupNode inv.steady steady.sound.tree found
        (Set.notMem_empty x)).resolve_right fun new => ?_, by rw [has']; rfl⟩
      obtain ⟨node, has, -⟩ := fields x node' has'
      rw [new] at has
      cases has
    · obtain ⟨-, parent, above, numbered, called⟩ :=
        inv.steady.sound.tree.lookupNode_eq_some_iff.mp before
      obtain ⟨node', has'⟩ := Option.isSome_iff_exists.mp inMemory
      obtain ⟨node, has, -, sameParent, sameName⟩ := fields x node' has'
      have up : s'.fuse.parentOf x = some parent := by
        rw [parentOf_eq has', sameParent, ← parentOf_eq has, above]
      have member := isNamed_of_parentOf steady up
      refine steady.sound.tree.lookupNode_eq_some_iff.mpr ⟨member, parent, up, ?_, ?_⟩
      · obtain ⟨_, parent', _, first, on, hasUp⟩ := steady.sound.tree.exists_parent member
        rw [parentOf_eq first, on] at up
        obtain rfl := Option.some.inj up
        obtain ⟨old, hadUp, same, -⟩ := fields parent' _ hasUp
        rw [← numbered, Fuse.nodeidOf, Fuse.nodeidOf, hasUp, hadUp]
        exact congrArg some same
      · rw [← called, Fuse.nameOf, Fuse.nameOf, has, has']
        exact sameName
    · rcases needed with root | known | held
      · exact follows.kept x node has (.inl root)
      · exact follows.kept x node has (.inr (.inl known))
      · exact follows.dots x held
  refine ⟨inv.follow follows steady (counting_of_changed counting changed)
    (fun _ wrong => absurd wrong (Set.notMem_empty _)) List.nil_subperm same
    fun h _ _ n x _ found => ((fewer.names (h.nodeid, n) x).mp found).1, fewer⟩

theorem Inv.hold (inv : Inv s) :
    ∃ s', s.exec (.hold nodeid) = some s' ∧ Stepped s s' (.hold nodeid) := by
  cases found : s.fuse.getNodeNocheck nodeid with
  | none =>
      exact ⟨s, by simp only [exec, found], inv,
        later_of_back inv.counting rfl rfl fun b node has => ⟨node, has, rfl, rfl⟩, rfl⟩
  | some a =>
      have numbered := inv.steady.sound.tree.getNode_eq_some_iff.mp found
      obtain ⟨node, has, -⟩ := Option.map_eq_some_iff.mp numbered
      have once : ∀ b, (a :: s.dots).count b = s.dots.count b + if b = a then 1 else 0 := fun b => by
        rw [List.count_cons]
        simp only [beq_iff_eq, @eq_comm _ a b]
      refine ⟨{ s with fuse := s.fuse.modify a addOne, dots := a :: s.dots },
        by simp only [exec, found]; rfl, ?_⟩
      have recounted : Recounted s { s with fuse := s.fuse.modify a addOne, dots := a :: s.dots }
          (s.fuse.modify a addOne) := by
        refine ⟨fun b inMemory => ?_, fun b node' has' => ?_, fun node' has' => ?_, fun _ => id,
          fun _ _ _ _ => id⟩
        · by_cases here : b = a
          · rw [here, Fuse.nodes_modify_self, Option.isSome_map, ← here]
            exact inMemory
          · rwa [Fuse.nodes_modify_of_ne s.fuse here]
        · obtain ⟨before, had, rfl⟩ := nodes_modify_eq_some has'
          refine ⟨before, had, by split <;> rfl, fun apart => ?_⟩
          rw [← inv.owed b before had apart]
          split <;> rfl
        · obtain ⟨before, had, rfl⟩ := nodes_modify_eq_some has'
          have known := (inv.steady.sound.counts.rootKnown before had).ne'
          split <;> exact known
      have steady : Steady (fun b => (a :: s.dots).count b) (s.fuse.modify a addOne) := by
        refine ⟨sound_recount inv.steady.sound (fun _ => rfl) (fun _ => rfl) (fun _ => rfl)
          (fun _ => rfl) (fun node' has' => ?_) (fun b away => ?_) fun _ _ _ => id,
          fun b node' has' => ?_⟩
        · have counted := inv.steady.sound.counts.refs a node' has'
          rw [once a, if_pos rfl]
          change node'.refctr + 1 = (if node'.nlookup = 0 then 0 else 1) + _ + _
          omega
        · rw [once b, if_neg away, Nat.add_zero]
        · obtain ⟨before, had, rfl⟩ := nodes_modify_eq_some has'
          split
          · exact Nat.succ_ne_zero _
          · exact inv.steady.alive b before had
      refine ⟨(inv.uncounted recounted steady (.refl _)
        ⟨inv.counting.ctr, inv.counting.generation⟩ (fun b member => ?_) rfl).1,
        @later_modify s.fuse (s.fuse.modify a addOne) (fun b => (a :: s.dots).count b) ∅ a addOne
          inv.counting (fun _ => rfl) (fun _ => rfl) (.refl _), ?_⟩
      · rcases List.mem_cons.mp member with rfl | member
        · rw [has]
          rfl
        · exact inv.dots_nodes member
      · have same := @lookupNode_modify s.fuse a addOne (fun _ => rfl) (fun _ => rfl) fun _ => rfl
        exact funext fun key => congrFun (congrFun same key.1) key.2

theorem Inv.drop (inv : Inv s) (member : a ∈ s.dots) :
    ∃ s', s.exec (.drop a) = some s' ∧ Stepped s s' (.drop a) := by
  have count : (fun b => s.dots.count b) = oneMore (fun b => (s.dots.erase a).count b) a := by
    funext b
    rw [oneMore]
    by_cases here : b = a
    · subst here
      have positive := List.count_pos_iff.mpr member
      rw [List.count_erase_self, if_pos rfl]
      omega
    · rw [List.count_erase_of_ne here, if_neg here, Nat.add_zero]
  have sound := inv.steady.sound
  rw [count] at sound
  obtain ⟨f, dropped, steady, changed⟩ :=
    steady_unrefNode sound inv.steady.alive (inv.dots a member)
  refine ⟨{ s with fuse := f, dots := s.dots.erase a }, ?_, ?_⟩
  · simp only [exec, dropped, Option.bind_eq_bind, Option.bind_some]
    rfl
  · have recounted : Recounted s { s with fuse := f, dots := s.dots.erase a } s.fuse :=
      inv.recounted rfl
    obtain ⟨inv', fewer⟩ := inv.uncounted recounted steady changed inv.counting
      (fun b left => inv.dots_nodes (List.mem_of_mem_erase left)) rfl
    exact ⟨inv', changed.later inv.counting, fewer⟩

theorem Inv.forget (inv : Inv s) (apart : nodeid ≠ fuseRootId) (positive : 0 < n)
    (owed : n ≤ s.owed nodeid) (ready : s.fuse.forgetWaits nodeid n = false) :
    ∃ s', s.exec (.forget nodeid n) = some s' ∧ Stepped s s' (.forget nodeid n) := by
  have tree := inv.steady.sound.tree
  obtain ⟨a, numbered⟩ := inv.known nodeid (.inr (positive.trans_le owed))
  obtain ⟨node, has, same⟩ := Option.map_eq_some_iff.mp numbered
  have notRoot : a ≠ rootNode := by
    rintro rfl
    exact apart (Option.some.inj (numbered.symm.trans tree.root.1))
  have looked : node.nlookup = s.owed nodeid := by rw [inv.owed a node has notRoot, same]
  have only : ∀ b before, s.fuse.nodes b = some before → before.nodeid = nodeid → b = a :=
    fun b before had number => tree.idSingle b a nodeid
      (by rw [Fuse.nodeidOf, had, Option.map_some, number]) numbered
  obtain ⟨f, forgets, steady, changed⟩ := forgetNode_spec inv.steady has same apart
    (by rwa [looked]) positive.ne' ready
  have owes : ∀ number, Function.update s.owed nodeid (s.owed nodeid - n) number =
      if number = nodeid then s.owed nodeid - n else s.owed number := fun number =>
    Function.update_apply ..
  have recounted : Recounted s
      { s with fuse := f, owed := Function.update s.owed nodeid (s.owed nodeid - n) }
      (s.fuse.modify a (forgotten n)) := by
    refine ⟨fun b inMemory => ?_, fun b node' has' => ?_, fun node' has' => ?_,
      fun number known => ?_, fun b before had locked known => ?_⟩
    · by_cases here : b = a
      · rw [here, Fuse.nodes_modify_self, Option.isSome_map, ← here]
        exact inMemory
      · rwa [Fuse.nodes_modify_of_ne s.fuse here]
    · obtain ⟨before, had, rfl⟩ := nodes_modify_eq_some has'
      refine ⟨before, had, by split <;> rfl, fun away => ?_⟩
      change _ = Function.update s.owed nodeid (s.owed nodeid - n) before.nodeid
      rw [owes]
      by_cases here : b = a
      · subst here
        obtain rfl := Option.some.inj (has.symm.trans had)
        rw [if_pos rfl, if_pos same, ← looked]
        rfl
      · rw [if_neg here, if_neg fun number => here (only b before had number)]
        exact inv.owed b before had away
    · obtain ⟨before, had, rfl⟩ := nodes_modify_eq_some has'
      rw [if_neg notRoot.symm]
      exact (inv.steady.sound.counts.rootKnown before had).ne'
    · change 0 < Function.update s.owed nodeid (s.owed nodeid - n) number at known
      rw [owes] at known
      split at known
      · rename_i here
        rw [here]
        omega
      · exact known
    · change 0 < Function.update s.owed nodeid (s.owed nodeid - n) before.nodeid
      rw [owes]
      split
      · rename_i here
        obtain rfl := only b before had here
        obtain rfl := Option.some.inj (has.symm.trans had)
        have found : s.fuse.getNode nodeid = some b := tree.getNode_eq_some_iff.mpr numbered
        have waits := mt (forgetWaits_eq_false ready apart found has) locked
        omega
      · exact known
  obtain ⟨inv', fewer⟩ := inv.uncounted recounted steady changed
    ⟨inv.counting.ctr, inv.counting.generation⟩ (fun _ => inv.dots_nodes) rfl
  refine ⟨_, ?_, inv', @later_modify s.fuse f (fun b => s.dots.count b) ∅ a (forgotten n)
    inv.counting (fun _ => rfl) (fun _ => rfl) changed, fewer⟩
  simp only [exec, forgets, Option.bind_eq_bind, Option.bind_some]
  rfl

end Counters

section Find

variable {s : Session} {f : Fuse} {found : Option Nat} {dir : Nat}

/-- The lookups that the kernel owes after one more node has been found. -/
def owedAfter (owed : Nat → Nat) (nodeid : Option Nat) : Nat → Nat :=
  match nodeid with
  | none => owed
  | some nodeid => Function.update owed nodeid (owed nodeid + 1)

theorem owedAfter_apply (owed : Nat → Nat) (nodeid : Option Nat) (number : Nat) :
    owedAfter owed nodeid number = owed number + if nodeid = some number then 1 else 0 := by
  cases nodeid with
  | none => rfl
  | some nodeid =>
      rw [owedAfter, Function.update_apply]
      by_cases here : number = nodeid
      · rw [if_pos here, if_pos (congrArg some here.symm), here]
      · rw [if_neg here, if_neg fun same => here (Option.some.inj same).symm, Nat.add_zero]

theorem Inv.follows_grown (inv : Inv s) (grown : Grown found s.fuse f) (tree : Tree f) :
    Follows ∅ s { s with fuse := f, owed := owedAfter s.owed (found.bind f.nodeidOf) } := by
  have old : ∀ b node, s.fuse.nodes b = some node → (f.nodes b).isSome = true := by
    intro b node has
    obtain ⟨node', has', -⟩ := grown.old b node has
    rw [has']
    rfl
  have numbers : ∀ b node', f.nodes b = some node' →
      (found.bind f.nodeidOf = some node'.nodeid ↔ found = some b) := by
    intro b node' has'
    have numbered : f.nodeidOf b = some node'.nodeid := by rw [Fuse.nodeidOf, has']; rfl
    constructor
    · intro same
      obtain ⟨c, rfl, other⟩ := Option.bind_eq_some_iff.mp same
      rw [tree.idSingle c b node'.nodeid other numbered]
    · rintro rfl
      exact numbered
  refine ⟨fun b node has _ => old b node has, fun b node' has' => ?_, fun b member => ?_,
    fun b node' has' apart => ?_, fun nodeid known => ?_, fun b node _ _ known => ?_⟩
  · cases had : s.fuse.nodes b with
    | none => exact .inr ⟨rfl, (grown.new b node' has' had).2.2.1⟩
    | some node =>
        obtain ⟨again, has'', nodeid, -, parent, name, treelock, -⟩ := grown.old b node had
        obtain rfl := Option.some.inj (has'.symm.trans has'')
        exact .inl ⟨node, rfl, nodeid, treelock, fun _ => ⟨parent, name⟩⟩
  · obtain ⟨node, has⟩ := exists_node (inv.dots b member)
    exact old b node has
  · change _ = owedAfter s.owed (found.bind f.nodeidOf) node'.nodeid
    rw [owedAfter_apply, ite_cond_congr (propext (numbers b node' has'))]
    cases had : s.fuse.nodes b with
    | none =>
        obtain ⟨here, once, -⟩ := grown.new b node' has' had
        have unknown : s.owed node'.nodeid = 0 := by
          by_contra known
          obtain ⟨c, numbered⟩ := inv.known node'.nodeid (.inr (Nat.pos_of_ne_zero known))
          obtain ⟨node, has, number⟩ := Option.map_eq_some_iff.mp numbered
          obtain ⟨again, hasAgain, same, -⟩ := grown.old c node has
          obtain rfl := tree.idSingle c b node'.nodeid
            (by rw [Fuse.nodeidOf, hasAgain, Option.map_some, same, number])
            (by rw [Fuse.nodeidOf, has']; rfl)
          rw [had] at has
          cases has
        rw [once, unknown, if_pos here]
    | some node =>
        obtain ⟨again, has'', nodeid, -, -, -, -, counted⟩ := grown.old b node had
        obtain rfl := Option.some.inj (has'.symm.trans has'')
        rw [counted, nodeid, inv.owed b node had apart]
  · change 0 < owedAfter s.owed (found.bind f.nodeidOf) nodeid at known
    rw [owedAfter_apply] at known
    by_cases here : found.bind f.nodeidOf = some nodeid
    · obtain ⟨c, -, numbered⟩ := Option.bind_eq_some_iff.mp here
      exact .inr ⟨c, numbered⟩
    · rw [if_neg here] at known
      exact .inl known
  · change 0 < owedAfter s.owed (found.bind f.nodeidOf) node.nodeid
    rw [owedAfter_apply]
    exact Nat.add_pos_left known _

theorem Inv.find {name : Option Bytes} {allocs : Allocs} (inv : Inv s) (knows : s.Knows dir)
    (room : s.fuse.idTable.use + 3 ≤ 2 ^ 32)
    (quiet : ∀ n, name = some n → s.fuse.lookupNode dir n = none → Quiet s.holdings dir n) :
    ∃ s', s.exec (.find dir name allocs) = some s' ∧ Stepped s s' (.find dir name allocs) := by
  have tree := inv.steady.sound.tree
  obtain ⟨parent, numbered⟩ := inv.known dir knows
  have unheld : s.dots.count s.fuse.brk = 0 :=
    List.count_eq_zero.mpr fun member => tree.ne_brk (inv.dots _ member) rfl
  obtain ⟨found, f, finds, steady, grown, names, refused⟩ :=
    @findNode_spec s.fuse _ parent dir allocs name inv.steady inv.counting room numbered unheld
  refine ⟨{ s with fuse := f, owed := owedAfter s.owed (found.bind f.nodeidOf) }, ?_, ?_⟩
  · simp only [exec, finds, Option.bind_eq_bind, Option.bind_some]
    cases found.bind f.nodeidOf <;> rfl
  · have follows := inv.follows_grown grown steady.sound.tree
    refine ⟨inv.follow follows steady grown.counting
      (fun _ wrong => absurd wrong (Set.notMem_empty _)) List.nil_subperm rfl
      fun h member armed n x called again => ?_, grown.later room, ?_⟩
    · have same : f.names (h.nodeid, n) = some x := again
      cases name with
      | none =>
          rw [names] at same
          exact same
      | some n' =>
          rw [names, Option.elim_some, Function.update_apply] at same
          split at same
          · rename_i here
            obtain ⟨sameDir, rfl⟩ := Prod.mk.inj here
            rw [sameDir] at again ⊢
            cases before : s.fuse.lookupNode dir n with
            | none => exact absurd called (quiet n rfl before h member armed sameDir)
            | some y => rw [← lookupNode_of_grown grown inv.steady steady before, again]
          · exact same
    · cases name with
      | none => exact names
      | some n =>
          cases before : s.fuse.lookupNode dir n with
          | some y =>
              have same : f.names = s.fuse.names := by
                have still : f.names (dir, n) = some y :=
                  lookupNode_of_grown grown inv.steady steady before
                rw [names, Option.elim_some, Function.update_self] at still
                rw [names, Option.elim_some, still]
                exact Function.update_eq_self_iff.mpr before.symm
              change Entered _ _ _ _ f.names
              rw [same]
              exact .there (by rw [Fuse.names, before]; exact Option.some_ne_none y)
          | none =>
              have short := refused n rfl before
              change Entered _ _ _ _ f.names
              rw [names, Option.elim_some]
              cases found with
              | none =>
                  have same : Function.update s.fuse.names (dir, n) none = s.fuse.names :=
                    Function.update_eq_self_iff.mpr before.symm
                  rw [same]
                  exact .noMemory before (short.mp rfl)
              | some a =>
                  have called : f.lookupNode dir n = some a := by
                    change f.names (dir, n) = some a
                    rw [names, Option.elim_some, Function.update_self]
                  have isNew : s.fuse.nodes a = none := by
                    rcases of_lookupNode_grown grown inv.steady steady.sound.tree called with
                      wrong | ⟨isNew, -⟩
                    · rw [before] at wrong
                      cases wrong
                    · exact isNew
                  obtain ⟨-, parent', above, -⟩ := steady.sound.tree.lookupNode_eq_some_iff.mp called
                  obtain ⟨node, has, -⟩ := Option.bind_eq_some_iff.mp above
                  exact .added before (fun few => by cases short.mpr few)
                    ⟨isNew, show (f.nodes a).isSome = true by rw [has]; rfl⟩

end Find

/-! ## Steps on the locks -/

section Locks

variable {s : Session} {f : Fuse} {a b last : Nat} {links : List (Nat × Bytes)}
  {change : Nat → Int → Int} {holdings : List Holding} {holds : Nat → Nat}

theorem lookupNode_relock : (relock f change).lookupNode = f.lookupNode := by
  have same : Fuse.SameNames f (relock f change) := sameNames_relock
  have ids := funext same.nodeid
  funext parent name
  refine congrArg (Table.find _ _) (funext fun b => ?_)
  rw [Fuse.isNamed, Fuse.isNamed, same.parent, same.name, ids]

theorem names_relock : (relock f change).names = f.names :=
  funext fun key => congrFun (congrFun lookupNode_relock key.1) key.2

theorem steady_relock (steady : Steady holds f) (keeps : Keeps (relock f change)) :
    Steady holds (relock f change) := by
  have same : Fuse.SameNames f (relock f change) := sameNames_relock
  have back : ∀ b node', (relock f change).nodes b = some node' → ∃ node, f.nodes b = some node ∧
      node'.refctr = node.refctr ∧ node'.nlookup = node.nlookup ∧ node'.name = node.name ∧
      node'.parent = node.parent := by
    intro b node' has'
    obtain ⟨node, has, rfl⟩ := Option.map_eq_some_iff.mp has'
    exact ⟨node, has, rfl, rfl, rfl, rfl⟩
  refine ⟨⟨steady.sound.tree.congr same rfl rfl rfl, steady.sound.counts.congr
    (fun b node' has' => ?_) (children_congr rfl fun b _ => same.parent b), keeps, ?_, ?_,
    steady.sound.settled.uses⟩, fun b node' has' => ?_⟩
  · obtain ⟨node, has, refctr, nlookup, -⟩ := back b node' has'
    exact ⟨node, has, refctr, nlookup⟩
  · intro b node' has' old apart called
    obtain ⟨node, has, -, -, name, -⟩ := back b node' has'
    exact steady.sound.settled.named b node has old apart (by rwa [← name])
  · intro b node' has' none
    obtain ⟨node, has, -, -, name, parent⟩ := back b node' has'
    rw [parent]
    exact steady.sound.settled.nameless b node has (by rw [← name, none])
  · obtain ⟨node, has, refctr, -⟩ := back b node' has'
    rw [refctr]
    exact steady.alive b node has

/-- A node on a way is its first one, or the parent of another one on it. -/
theorem climb_parent (climb : Climb f a links last) (member : b ∈ nodesOf links) :
    b = a ∨ ∃ c ∈ nodesOf links, f.parentOf c = some b := by
  induction climb with
  | here => cases member
  | @up a parent _ _ _ links _ _ _ above rest ih =>
      rcases List.mem_cons.mp member with first | later
      · exact .inl first
      · rcases ih later with same | ⟨c, onWay, up⟩
        · exact .inr ⟨a, List.mem_cons_self, by rw [above, same]⟩
        · exact .inr ⟨c, List.mem_cons_of_mem _ onWay, up⟩

/-- The nodes on a path that is locked are kept in memory by the first one. -/
theorem Inv.keeps_relock (inv : Inv s) (held : ∀ h ∈ holdings, Held s h)
    (few : (holdings.length : Int) + 1 + treelockWaitOffset < -1)
    (locks : ∀ a node, s.fuse.nodes a = some node → Encodes treelockWaitOffset (readers holdings a)
      (writers holdings a) (change a node.treelock)) : Keeps (relock s.fuse change) := by
  intro a node' has' locked
  obtain ⟨node, has, rfl⟩ := Option.map_eq_some_iff.mp has'
  have known : ∀ nodeid, s.Knows nodeid → s.fuse.nodeidOf a = some nodeid → 0 < node.nlookup := by
    intro nodeid knows numbered
    obtain ⟨b, dir⟩ := inv.knownDir knows
    obtain rfl := inv.steady.sound.tree.idSingle a b nodeid numbered dir.numbered
    exact Nat.pos_of_ne_zero (dir.known node has)
  rcases Nat.eq_zero_or_pos (readers holdings a) with unread | read
  · have written : 0 < writers holdings a := by
      by_contra none
      have encodes := locks a node has
      rw [unread, Nat.eq_zero_of_not_pos none] at encodes
      rcases encodes with ⟨-, free | ⟨positive, -⟩⟩ | ⟨wrong, -⟩
      · exact locked free
      · exact absurd positive (lt_irrefl 0)
      · exact absurd wrong Nat.zero_ne_one
    obtain ⟨h, member, writes⟩ := List.countP_pos_iff.mp written
    obtain ⟨-, again, hasAgain, owed⟩ := (held h member).written a (of_decide_eq_true writes)
    obtain rfl := Option.some.inj (has.symm.trans hasAgain)
    exact .inl (known node.nodeid (.inr owed) (by rw [Fuse.nodeidOf, has]; rfl))
  · have some : ∃ h ∈ holdings, a ∈ nodesOf h.links := by
      by_contra none
      exact read.ne' (readers_eq_zero fun h member onWay => none ⟨h, member, onWay⟩)
    obtain ⟨h, member, onWay⟩ := some
    obtain ⟨c, numbered, chain⟩ := (held h member).chain
    rcases climb_parent chain onWay with rfl | ⟨b, before, above⟩
    · exact .inl (known h.nodeid (held h member).knows numbered)
    · obtain ⟨below, hasBelow, on⟩ := Option.bind_eq_some_iff.mp above
      have bound := @readers_le_length holdings b fun h member =>
        (held h member).nodup inv.steady.sound.tree
      have lock := (locks b below hasBelow).ne_zero_of_read (readers_pos member before) (by omega)
      have named : s.fuse.IsNamed b := Climb.isNamed chain inv.steady before
      exact .inr ⟨b, _, nodes_relock hasBelow, lock.1, named, on⟩

/-- The invariant is kept if the locks are those of the paths that are locked then. -/
theorem Inv.relocked (inv : Inv s) (held : ∀ h ∈ holdings, Held s h)
    (single : (targets holdings).Nodup)
    (few : (holdings.length : Int) + 1 + treelockWaitOffset < -1)
    (locks : ∀ a node, s.fuse.nodes a = some node → Encodes treelockWaitOffset (readers holdings a)
      (writers holdings a) (change a node.treelock)) :
    Inv { s with fuse := relock s.fuse change, holdings := holdings } := by
  have same : Fuse.SameNames s.fuse (relock s.fuse change) := sameNames_relock
  refine ⟨steady_relock inv.steady (inv.keeps_relock held few locks),
    ⟨inv.counting.ctr, inv.counting.generation⟩, fun a member => ?_, fun a node' has' apart => ?_,
    fun nodeid knows => ?_, fun a node' has' => ?_, fun h member => ?_, single, few⟩
  · rw [same.nodeid]
    exact inv.dots a member
  · obtain ⟨node, has, rfl⟩ := Option.map_eq_some_iff.mp has'
    exact inv.owed a node has apart
  · obtain ⟨a, numbered⟩ := inv.known nodeid knows
    exact ⟨a, (same.nodeid a).trans numbered⟩
  · obtain ⟨node, has, rfl⟩ := Option.map_eq_some_iff.mp has'
    exact locks a node has
  · obtain ⟨knows, ⟨a, numbered, chain⟩, written, armed, path⟩ := held h member
    refine ⟨knows, ⟨a, (same.nodeid a).trans numbered, Climb.congr chain same⟩, fun w writes => ?_,
      fun still => ?_, path⟩
    · obtain ⟨apart, node, has, owed⟩ := written w writes
      exact ⟨apart, _, nodes_relock has, owed⟩
    · obtain ⟨n, called, target⟩ := armed still
      refine ⟨n, called, fun x found => target x ?_⟩
      rwa [lookupNode_relock] at found

theorem readers_cons (h : Holding) (holdings : List Holding) (a : Nat) :
    readers (h :: holdings) a = (nodesOf h.links).count a + readers holdings a := rfl

theorem writers_cons (h : Holding) (holdings : List Holding) (a : Nat) :
    writers (h :: holdings) a = writers holdings a + if h.wnode = some a then 1 else 0 := by
  rw [writers, List.countP_cons]
  simp only [decide_eq_true_eq]
  rfl

theorem targets_cons (h : Holding) (holdings : List Holding) : targets (h :: holdings) =
    if h.armed then (h.nodeid, h.name) :: targets holdings else targets holdings := by
  rw [targets, List.filter_cons]
  cases h.armed <;> rfl

theorem Inv.lock {nodeid : Nat} {name : Option Bytes} {writes : Bool}
    {grants : Nat → Option Memory} (inv : Inv s) (knows : s.Knows nodeid)
    (fits : ∀ a, s.fuse.nodeidOf a = some nodeid → NamesFit s.fuse a name)
    (few : (s.holdings.length : Int) + 2 + treelockWaitOffset < -1)
    (free : writes = true → ∃ n, name = some n ∧ Quiet s.holdings nodeid n ∧
      ∀ w number, s.fuse.lookupNode nodeid n = some w → s.fuse.nodeidOf w = some number →
        0 < s.owed number) :
    ∃ s', s.exec (.lock nodeid name writes grants) = some s' ∧ Stepped s s' (.lock nodeid name writes grants) := by
  have tree := inv.steady.sound.tree
  obtain ⟨a, numbered⟩ := inv.known nodeid knows
  obtain ⟨result, f, went, tried⟩ := @tryGetPath_spec s.fuse a nodeid name writes _ grants inv.steady
    numbered (fits a numbered)
  simp only [exec, went, Option.bind_eq_bind, Option.bind_some]
  cases tried with
  | refused =>
      exact ⟨_, rfl, inv, later_of_back inv.counting rfl rfl fun b node has => ⟨node, has, rfl, rfl⟩,
        rfl⟩
  | @waits w node must found has read =>
      refine ⟨_, rfl, ?_⟩
      rw [setTreelock_eq_relock]
      refine ⟨inv.relocked inv.held inv.single inv.few fun b before had => ?_,
        later_relock inv.counting, names_relock⟩
      have encodes := inv.locks b before had
      split
      · rename_i here
        subst here
        obtain rfl := Option.some.inj (has.symm.trans had)
        have bound := inv.few_readers b
        exact encodes.wait read (by omega)
      · exact encodes
  | @locked wnode links chain writer unlocked readable =>
      refine ⟨_, rfl, ?_⟩
      rw [linksOf_eq chain inv.steady numbered]
      have nodup := Climb.nodup chain tree
      refine ⟨inv.relocked (fun h member => ?_) ?_ ?_ fun b before had => ?_,
        later_relock inv.counting, names_relock⟩
      · rcases List.mem_cons.mp member with rfl | old
        · refine ⟨knows, ⟨a, numbered, chain⟩, fun w here => ?_, fun armed => ?_, rfl⟩
          · cases writes with
            | false =>
                rw [writer] at here
                cases here
            | true =>
                obtain ⟨n, rfl, -, looked⟩ := free rfl
                have found : s.fuse.lookupNode nodeid n = some w := writer.symm.trans here
                have member := (tree.lookupNode_eq_some_iff.mp found).1
                obtain ⟨node, _, _, has, -⟩ := tree.exists_parent member
                exact ⟨notRoot_of_named inv.steady.sound member, node, has,
                  looked w node.nodeid found (by rw [Fuse.nodeidOf, has]; rfl)⟩
          · obtain rfl : writes = true := armed
            obtain ⟨n, rfl, -⟩ := free rfl
            exact ⟨n, rfl, fun x found => writer.trans found⟩
        · exact inv.held h old
      · rw [targets_cons]
        cases writes with
        | false => exact inv.single
        | true =>
            obtain ⟨n, rfl, quiet, -⟩ := free rfl
            refine List.nodup_cons.mpr ⟨fun taken => ?_, inv.single⟩
            obtain ⟨h, member, same⟩ := List.mem_map.mp taken
            obtain ⟨old, armed⟩ := List.mem_filter.mp member
            obtain ⟨dir, called⟩ := Prod.mk.inj same
            exact quiet h old armed dir called
      · rw [List.length_cons]
        push_cast
        omega
      · have encodes := inv.locks b before had
        have bound := inv.few_readers b
        rw [readers_cons, writers_cons, lockedBy]
        change Encodes _ ((nodesOf links).count b + _) (_ + if wnode = some b then 1 else 0) _
        by_cases here : wnode = some b
        · obtain ⟨node, has, zero⟩ := unlocked b here
          obtain rfl := Option.some.inj (has.symm.trans had)
          obtain ⟨unread, unwritten⟩ := encodes.free_of_eq_zero (by omega) zero
          have away : b ∉ nodesOf links := fun onWay => (readable b onWay).1 here
          rw [if_pos here, if_pos here, unread, unwritten, List.count_eq_zero.mpr away]
          exact encodes_written
        · rw [if_neg here, if_neg here, Nat.add_zero, addReader]
          by_cases onWay : b ∈ nodesOf links
          · rw [if_pos onWay, List.count_eq_one_of_mem nodup onWay, Nat.add_comm 1]
            exact encodes.read ((readable b onWay).2 before had) (by omega)
          · rw [if_neg onWay, List.count_eq_zero.mpr onWay, Nat.zero_add]
            exact encodes

theorem Inv.unlock {h : Holding} (inv : Inv s) (member : h ∈ s.holdings) :
    ∃ s', s.exec (.unlock h) = some s' ∧ Stepped s s' (.unlock h) := by
  have tree := inv.steady.sound.tree
  have held := inv.held h member
  obtain ⟨a, numbered, chain⟩ := held.chain
  have nodup := Climb.nodup chain tree
  have perm := List.perm_cons_erase member
  have locks : ∀ b node, s.fuse.nodes b = some node → Encodes treelockWaitOffset
      ((nodesOf h.links).count b + readers (s.holdings.erase h) b)
      (writers (s.holdings.erase h) b + if h.wnode = some b then 1 else 0) node.treelock := by
    intro b node has
    have encodes := inv.locks b node has
    rwa [readers_perm perm, writers_perm perm, readers_cons, writers_cons] at encodes
  have written : ∀ w, h.wnode = some w → ∃ node, s.fuse.nodes w = some node ∧
      node.treelock = treelockWrite := by
    intro w writes
    obtain ⟨-, node, has, -⟩ := held.written w writes
    exact ⟨node, has, (inv.locks w node has).eq_of_written (writers_pos member writes)⟩
  have unread : ∀ b ∈ nodesOf h.links, ∀ node, s.fuse.nodes b = some node →
      IsRead treelockWaitOffset node.treelock ∧ Encodes treelockWaitOffset
        (readers (s.holdings.erase h) b) (writers (s.holdings.erase h) b)
        (release treelockWaitOffset node.treelock) := by
    intro b onWay node has
    have encodes := locks b node has
    have bound := inv.few_readers b
    rw [readers_perm perm, readers_cons, List.count_eq_one_of_mem nodup onWay] at bound
    have unwritten := (inv.onWay member onWay has).2
    rw [writers_perm perm, writers_cons] at unwritten
    rw [unwritten, List.count_eq_one_of_mem nodup onWay, Nat.add_comm 1] at encodes
    rw [Nat.eq_zero_of_add_eq_zero_right unwritten]
    exact encodes.unread (by decide) (by omega)
  have unlocked := unlockPath_spec inv.steady ⟨fun _ => rfl, fun _ => rfl, fun _ => rfl⟩ rfl rfl rfl
    numbered chain (.inr ⟨rfl, tree.root.1⟩) written fun b onWay node has => (unread b onWay node has).1
  refine ⟨_, by simp only [exec, unlocked, Option.bind_eq_bind, Option.bind_some]; rfl, ?_⟩
  refine ⟨inv.relocked (fun h' left => inv.held h' (List.mem_of_mem_erase left)) ?_ ?_
    fun b before had => ?_, later_relock inv.counting, names_relock⟩
  · exact inv.single.sublist ((List.erase_sublist.filter _).map _)
  · have shorter := List.length_erase_of_mem member
    have few := inv.few
    omega
  · have encodes := locks b before had
    rw [unlockedBy]
    by_cases here : h.wnode = some b
    · rw [if_pos here] at encodes ⊢
      have one := encodes.single
      rcases encodes.excludes with none | wrong
      · rw [Nat.eq_zero_of_add_eq_zero_left none, show writers (s.holdings.erase h) b = 0 by omega]
        exact encodes_free
      · omega
    · rw [if_neg here, dropReader]
      by_cases onWay : b ∈ nodesOf h.links
      · rw [if_pos onWay]
        exact (unread b onWay before had).2
      · rw [if_neg onWay]
        rwa [if_neg here, List.count_eq_zero.mpr onWay, Nat.zero_add, Nat.add_zero] at encodes

end Locks

/-! ## Runs -/

section Runs

variable {s s' : Session} {e : Event} {table : Bool}

/-- Every step that is allowed succeeds and keeps the invariant. -/
theorem Inv.exec (inv : Inv s) (allowed : s.Allowed e) :
    ∃ s', s.exec e = some s' ∧ Stepped s s' e := by
  cases e with
  | find dir name allocs => exact inv.find allowed.1 allowed.2.1 allowed.2.2
  | forget nodeid nlookup =>
      exact inv.forget allowed.1 allowed.2.1 allowed.2.2.1 allowed.2.2.2
  | hold nodeid => exact inv.hold
  | drop a => exact inv.drop allowed
  | lock nodeid name writes grants =>
      exact inv.lock allowed.1 allowed.2.1 allowed.2.2.1 allowed.2.2.2
  | unlock h => exact inv.unlock allowed
  | remove h => exact inv.remove allowed.1 allowed.2
  | rename old new allocs => exact inv.rename allowed.1 allowed.2.1 allowed.2.2.1 allowed.2.2.2
  | hide h name allocs => exact inv.hide allowed.1 allowed.2.1 allowed.2.2
  | exchange old new first second =>
      exact inv.exchange allowed.1 allowed.2.1 allowed.2.2.1 allowed.2.2.2

theorem inv_start (table : Bool) : Inv (start table) := by
  have only : ∀ a node, (Fuse.start table).nodes a = some node → a = rootNode ∧ node = topNode := by
    intro a node has
    rw [nodes_start] at has
    split at has
    · rename_i here
      exact ⟨here, (Option.some.inj has).symm⟩
    · cases has
  refine ⟨start_steady table, ⟨Nat.two_pow_pos 32, Nat.two_pow_pos 32⟩, fun a member => ?_,
    fun a node has apart => absurd (only a node has).1 apart, fun nodeid knows => ?_,
    fun a node has => ?_, fun h member => ?_, List.nodup_nil,
    show ((0 : Nat) : Int) + 1 + treelockWaitOffset < -1 by decide⟩
  · cases member
  · rcases knows with rfl | wrong
    · exact ⟨rootNode, (start_steady table).sound.tree.root.1⟩
    · exact absurd wrong (lt_irrefl 0)
  · rw [(only a node has).2]
    exact encodes_free
  · cases member

theorem Reachable.inv (reachable : Reachable table s) : Inv s := by
  induction reachable with
  | start => exact inv_start table
  | step _ allowed result ih =>
      obtain ⟨after, again, stepped⟩ := ih.exec allowed
      rw [result] at again
      rw [Option.some.inj again]
      exact stepped.inv

end Runs

end Session

end Libfuse

end NosqlFS
