import NosqlFS.Libfuse.Operations

/-!
# Removing and renaming

What the host has removed, renamed or exchanged is removed, renamed or exchanged in the
tree.  The tree is a map from the directories and names to the nodes, and each of the
operations changes this map at the names that it is given, and nowhere else.
-/

namespace NosqlFS

namespace Libfuse

open LinearHash LinearHash.Table Text

/-! ## Names that are taken away -/

/-- No name is found that was not found before, except for some. -/
def NoNewNames (gained : Set (Nat × Bytes)) (f f' : Fuse) : Prop :=
  ∀ dir name b, f'.lookupNode dir name = some b →
    f.lookupNode dir name = some b ∨ (dir, name) ∈ gained

theorem NoNewNames.trans {f f' f'' : Fuse} {gained gained' : Set (Nat × Bytes)}
    (first : NoNewNames gained f f') (second : NoNewNames gained' f' f'') :
    NoNewNames (gained ∪ gained') f f'' := by
  intro d n b found
  rcases second d n b found with middle | here
  · exact (first d n b middle).imp_right .inl
  · exact .inr (.inr here)

/-- The node that was found, if one was, has lost its name. -/
def Cleared (holds : Nat → Nat) (found : Option Nat) (f f' : Fuse) : Prop :=
  match found with
  | none => f' = f
  | some a => Unlinked holds a f f'

section Clear

variable {f f' : Fuse} {holds : Nat → Nat} {found : Option Nat} {a b dir : Nat} {name : Bytes}

theorem unhashFound_spec (steady : Steady holds f)
    (movable : ∀ a, found = some a → a ≠ rootNode ∧ Movable f a) :
    ∃ f', f.unhashFound found = some f' ∧ Steady holds f' ∧ Cleared holds found f f' := by
  cases found with
  | none => exact ⟨f, rfl, steady, rfl⟩
  | some a => exact unhashName_steady steady (movable a rfl).1 (movable a rfl).2

namespace Cleared

theorem changed (cleared : Cleared holds found f f') : Changed holds { a | found = some a } f f' := by
  cases found with
  | none =>
      obtain rfl : f' = f := cleared
      exact .refl _
  | some a =>
      have unlinked : Unlinked holds a f f' := cleared
      exact unlinked.changed.mono fun b here => congrArg some (Set.mem_singleton_iff.mp here).symm

theorem lookupNode (cleared : Cleared holds found f f') (tree : Tree f) (tree' : Tree f')
    (again : f'.lookupNode dir name = some b) :
    f.lookupNode dir name = some b ∧ found ≠ some b := by
  cases found with
  | none =>
      obtain rfl : f' = f := cleared
      exact ⟨again, (Option.some_ne_none b).symm⟩
  | some a =>
      obtain ⟨before, other⟩ := Unlinked.lookupNode cleared tree tree' again
      exact ⟨before, fun here => other (Option.some.inj here).symm⟩

theorem noNewNames (cleared : Cleared holds found f f') (tree : Tree f) (tree' : Tree f') :
    NoNewNames ∅ f f' := fun _ _ _ again => .inl (cleared.lookupNode tree tree' again).1

theorem movable (cleared : Cleared holds found f f') (movable : Movable f a) : Movable f' a := by
  cases found with
  | none =>
      obtain rfl : f' = f := cleared
      exact movable
  | some _ => exact movable.after cleared

theorem below (cleared : Cleared holds found f f') (below : f'.Below a b) : f.Below a b := by
  cases found with
  | none =>
      obtain rfl : f' = f := cleared
      exact below
  | some _ => exact Unlinked.below cleared below

/-- What has no name gets none. -/
theorem nameless (cleared : Cleared holds found f f') (movable : Movable f' a)
    (nameless : f.nameOf a = none) : ∃ node, f'.nodes a = some node ∧ node.name = none := by
  obtain ⟨node, has, -⟩ := movable.stays
  refine ⟨node, has, ?_⟩
  have same : f'.nameOf a = node.name := by rw [Fuse.nameOf, has]; rfl
  rw [← same]
  cases found with
  | none =>
      obtain rfl : f' = f := cleared
      exact nameless
  | some b =>
      have unlinked : Unlinked holds b f f' := cleared
      by_contra called
      obtain ⟨name, called⟩ := Option.ne_none_iff_exists'.mp called
      rw [unlinked.names a name called] at nameless
      cases nameless

/-- The name is taken away, and no other one. -/
theorem names (cleared : Cleared holds found f f') (tree : Tree f) (tree' : Tree f')
    {key : Nat × Bytes} (here : f.names key = found) :
    f'.names = Function.update f.names key none := by
  funext key'
  rw [Function.update_apply]
  cases found with
  | none =>
      obtain rfl : f' = f := cleared
      split
      · rename_i same
        rw [same, here]
      · rfl
  | some a =>
      rw [Unlinked.names_eq cleared tree tree' key']
      by_cases same : key' = key
      · rw [if_pos same, if_pos (same ▸ here)]
      · rw [if_neg same, if_neg fun again => same (names_injective tree again here)]

theorem nameOf_self (cleared : Cleared holds (some a) f f') : f'.nameOf a = none := by
  obtain ⟨node, has, nameless⟩ := Unlinked.nameless cleared
  rw [Fuse.nameOf, has]
  exact nameless

end Cleared

theorem removeNode_spec (steady : Steady holds f)
    (movable : ∀ a, f.lookupNode dir name = some a → Movable f a) :
    ∃ f', f.removeNode dir name = some f' ∧ Steady holds f' ∧
      Cleared holds (f.lookupNode dir name) f f' ∧
      f'.names = Function.update f.names (dir, name) none := by
  have same : f.removeNode dir name = f.unhashFound (f.lookupNode dir name) := by
    unfold Fuse.removeNode
    cases f.lookupNode dir name <;> rfl
  obtain ⟨f', unhashed, steady', cleared⟩ := unhashFound_spec steady fun a found =>
    ⟨notRoot_of_named steady.sound (steady.sound.tree.lookupNode_eq_some_iff.mp found).1,
      movable a found⟩
  exact ⟨f', same.trans unhashed, steady', cleared,
    cleared.names steady.sound.tree steady'.sound.tree rfl⟩

end Clear

/-- The node that was found, if one was, has got a name, unless memory was short. -/
def Given (found : Option Nat) (parent : Nat) (name : Bytes) (hashed : Bool) (f f' : Fuse) : Prop :=
  f' = f ∧ (hashed = true → found = none) ∨
    ∃ a granted, found = some a ∧ hashed = true ∧ f' = giveName f granted a parent name

section Give

variable {f f' : Fuse} {holds : Nat → Nat} {found : Option Nat} {a b parent parentid dir : Nat}
  {name other : Bytes} {hashed : Bool} {allocs : Allocs}

theorem hashFound_spec (steady : Steady holds f) (inMemory : f.nodeidOf parent = some parentid)
    (nameable : ∀ a, found = some a → Nameable f a parent name) :
    ∃ hashed f', f.hashFound allocs found parentid name = some (hashed, f') ∧ Steady holds f' ∧
      Given found parent name hashed f f' ∧
      (hashed = false ↔ found ≠ none ∧ allocs.Short name) := by
  cases found with
  | none =>
      exact ⟨true, f, rfl, steady, .inl ⟨rfl, fun _ => rfl⟩, (fun wrong => by cases wrong),
        fun wrong => absurd rfl wrong.1⟩
  | some a =>
      have named := nameable a rfl
      obtain ⟨node, has, nameless⟩ := named.nameless
      obtain ⟨hashed, given, refused⟩ := @hashName_spec f a parent parentid name holds node allocs
        steady.sound has nameless inMemory
      have short : hashed = false ↔ some a ≠ none ∧ allocs.Short name :=
        refused.trans (and_iff_right (Option.some_ne_none a)).symm
      refine ⟨hashed, _, given, ?_⟩
      cases hashed with
      | false => exact ⟨steady, .inl ⟨rfl, fun wrong => by cases wrong⟩, short⟩
      | true =>
          exact ⟨steady_giveName steady named allocs.table,
            .inr ⟨a, allocs.table, rfl, rfl, rfl⟩, short⟩

namespace Given

theorem changed (given : Given found parent name hashed f f') :
    Changed holds { a | found = some a } f f' := by
  rcases given with ⟨rfl, -⟩ | ⟨a, granted, rfl, -, rfl⟩
  · exact .refl _
  · exact (changed_giveName granted).mono fun b here =>
      congrArg some (Set.mem_singleton_iff.mp here).symm

theorem noNewNames (given : Given found parent name hashed f f') (tree : Tree f)
    (nameable : ∀ a, found = some a → Nameable f a parent name)
    (inMemory : f.nodeidOf parent = some parentid) : NoNewNames {(parentid, name)} f f' := by
  intro d n b again
  rcases given with ⟨rfl, -⟩ | ⟨a, granted, rfl, -, rfl⟩
  · exact .inl again
  · rcases of_lookupNode_giveName tree (nameable a rfl) granted inMemory again with
      ⟨before, -⟩ | ⟨rfl, rfl, -⟩
    · exact .inl before
    · exact .inr rfl

/-- The node is found under its new name. -/
theorem lookupNode_self (given : Given found parent name hashed f f') (tree : Tree f)
    (nameable : ∀ a, found = some a → Nameable f a parent name)
    (inMemory : f.nodeidOf parent = some parentid) (absent : f.lookupNode parentid name = none)
    (done : hashed = true) : f'.lookupNode parentid name = found := by
  rcases given with ⟨rfl, none⟩ | ⟨b, granted, rfl, -, rfl⟩
  · rw [none done, absent]
  · exact lookupNode_giveName tree (nameable b rfl) granted inMemory

theorem below (given : Given found parent name hashed f f') (below : f'.Below a b) :
    f.Below a b ∨ ∃ c, found = some c ∧ (a = c ∨ f.Below a c) := by
  rcases given with ⟨rfl, -⟩ | ⟨c, granted, here, -, rfl⟩
  · exact .inl below
  · exact (below_giveName granted below).imp_right fun either => ⟨c, here, either⟩

theorem nameless (given : Given found parent name hashed f f') (other : found ≠ some b)
    (nameless : ∃ node, f.nodes b = some node ∧ node.name = none) :
    ∃ node, f'.nodes b = some node ∧ node.name = none := by
  obtain ⟨node, has, none⟩ := nameless
  rcases given with ⟨rfl, -⟩ | ⟨c, granted, here, -, rfl⟩
  · exact ⟨node, has, none⟩
  · refine ⟨relabelled c parent name b node, ?_, ?_⟩
    · exact (nodes_labelled b).trans (by rw [has]; rfl)
    · rw [(relabelled_names fun same => other (here.trans (congrArg some same.symm))).2, none]

/-- Under the other names the same nodes are found as before. -/
theorem lookupNode_other (given : Given found parent name hashed f f') (tree : Tree f)
    (tree' : Tree f') (nameable : ∀ a, found = some a → Nameable f a parent name)
    (inMemory : f.nodeidOf parent = some parentid) (apart : (dir, other) ≠ (parentid, name)) :
    f'.lookupNode dir other = f.lookupNode dir other := by
  refine Option.ext fun b => ⟨fun again => ?_, fun before => ?_⟩
  · exact (given.noNewNames tree nameable inMemory dir other b again).resolve_right apart
  · rcases given with ⟨rfl, -⟩ | ⟨c, granted, here, -, rfl⟩
    · exact before
    · obtain ⟨member, up, on, numbered, called⟩ := tree.lookupNode_eq_some_iff.mp before
      have away := (nameable c here).distinct tree member
      refine tree'.lookupNode_eq_some_iff.mpr ⟨?_, up, (parentOf_labelled away).trans on, ?_,
        (nameOf_labelled away).trans called⟩
      · exact ((nameable c here).isNamed_iff tree granted b).mpr (.inr member)
      · exact (congrFun nodeidOf_labelled up).trans numbered

/-- The name is given to the node, and no other one. -/
theorem names (given : Given found parent name hashed f f') (tree : Tree f) (tree' : Tree f')
    (nameable : ∀ a, found = some a → Nameable f a parent name)
    (inMemory : f.nodeidOf parent = some parentid) (absent : f.lookupNode parentid name = none) :
    f'.names = if hashed then Function.update f.names (parentid, name) found else f.names := by
  cases hashed with
  | false =>
      rcases given with ⟨rfl, -⟩ | ⟨_, _, _, wrong, _⟩
      · rfl
      · cases wrong
  | true =>
      funext key
      rw [if_pos rfl, Function.update_apply]
      split
      · rename_i same
        rw [same]
        exact given.lookupNode_self tree nameable inMemory absent rfl
      · rename_i apart
        exact given.lookupNode_other tree tree' nameable inMemory apart

end Given

end Give

section Rename

variable {f : Fuse} {holds : Nat → Nat} {olddir newdir source target : Nat}
  {oldname newname : Bytes} {allocs second : Allocs}

/-- Only the mark of a hidden file changes. -/
theorem steady_hidden {a : Nat} (steady : Steady holds f) :
    Steady holds (f.modify a fun node => { node with isHidden := true }) := by
  refine ⟨sound_recount steady.sound (fun _ => rfl) (fun _ => rfl) (fun _ => rfl) (fun _ => rfl)
    (fun node has => steady.sound.counts.refs a node has) (fun _ _ => rfl)
    fun _ _ _ known => known, fun b node' has' => ?_⟩
  obtain ⟨node, has, same⟩ := nodes_modify_eq_some has'
  rw [same]
  split <;> exact steady.alive b node has

/-- What is found does not depend on the other fields of the nodes. -/
theorem lookupNode_modify {a : Nat} {change : Node → Node}
    (nodeid : ∀ node, (change node).nodeid = node.nodeid)
    (parent : ∀ node, (change node).parent = node.parent)
    (name : ∀ node, (change node).name = node.name) :
    (f.modify a change).lookupNode = f.lookupNode := by
  have same := Fuse.sameNames_modify f a nodeid parent name
  have ids := funext same.nodeid
  funext parent name
  refine congrArg (Table.find _ _) (funext fun b => ?_)
  rw [Fuse.isNamed, Fuse.isNamed, same.parent, same.name, ids]

/-- The node can be moved below a directory that is not below it. -/
structure MovableTo (f : Fuse) (a target : Nat) : Prop where
  movable : Movable f a
  away : target ≠ a
  notBelow : ¬ f.Below target a

/-- The kernel knows the directory. -/
structure KnownDir (f : Fuse) (nodeid a : Nat) : Prop where
  numbered : f.nodeidOf a = some nodeid
  known : ∀ node, f.nodes a = some node → node.nlookup ≠ 0

theorem KnownDir.after {f' : Fuse} {nodeid a : Nat} {moved : Set Nat} (dir : KnownDir f nodeid a)
    (changed : Changed holds moved f f') : KnownDir f' nodeid a :=
  ⟨(changed.nodeidOf_eq dir.numbered dir.known).1, (changed.nodeidOf_eq dir.numbered dir.known).2⟩

/-- A node without a name can be named where the name is not found. -/
theorem nameable_of {a : Nat} (steady : Steady holds f) (dir : KnownDir f newdir target)
    (nameless : ∃ node, f.nodes a = some node ∧ node.name = none) (notRoot : a ≠ rootNode)
    (away : target ≠ a) (notBelow : ¬ f.Below target a)
    (absent : f.lookupNode newdir newname = none) : Nameable f a target newname :=
  ⟨nameless, notRoot, by rw [dir.numbered]; rfl, away, notBelow, fun _ =>
    free_of_lookupNode steady.sound.tree dir.numbered absent⟩

/-- What renaming does to the names, with the error that it returns: it depends on nothing but
the names and whether the memory for the new name is short. -/
inductive Renamed (names : Nat × Bytes → Option Nat) (old new : Nat × Bytes) (hide : Bool)
    (short : Prop) : Int → (Nat × Bytes → Option Nat) → Prop where
  | absent : names old = none → Renamed names old new hide short 0 names
  | busy : hide = true → names old ≠ none → names new ≠ none →
      Renamed names old new hide short (-16) names
  | moved : names old ≠ none → (hide = true → names new = none) → ¬ short →
      Renamed names old new hide short 0
        (Function.update (Function.update names old none) new (names old))
  | noMemory : names old ≠ none → (hide = true → names new = none) → short →
      Renamed names old new hide short (-12)
        (Function.update (Function.update names old none) new none)

/-- Renaming succeeds if what it moves can be moved. -/
theorem renameNode_spec (steady : Steady holds f) (hide : Bool) (dir : KnownDir f newdir target)
    (movable : ∀ a, f.lookupNode olddir oldname = some a → MovableTo f a target)
    (replaced : hide = false → ∀ b, f.lookupNode newdir newname = some b → Movable f b) :
    ∃ err f', f.renameNode allocs olddir oldname newdir newname hide = some (err, f') ∧
      Steady holds f' ∧
      Changed holds { a | f.lookupNode olddir oldname = some a ∨
        hide = false ∧ f.lookupNode newdir newname = some a } f f' ∧
      NoNewNames {(newdir, newname)} f f' ∧
      Renamed f.names (olddir, oldname) (newdir, newname) hide (allocs.Short newname) err
        f'.names := by
  have tree := steady.sound.tree
  unfold Fuse.renameNode
  cases found : f.lookupNode olddir oldname with
  | none => exact ⟨0, f, rfl, steady, .refl f, fun _ _ _ => .inl, .absent found⟩
  | some a =>
      obtain ⟨movable, away, notBelow⟩ := movable a found
      have notRoot := notRoot_of_named steady.sound (tree.lookupNode_eq_some_iff.mp found).1
      by_cases busy : (f.lookupNode newdir newname).isSome ∧ hide
      · exact ⟨-16, f, by simp only [if_pos busy], steady, .refl f, fun _ _ _ => .inl,
          .busy busy.2 (by rw [Fuse.names, found]; exact Option.some_ne_none a)
            (Option.isSome_iff_ne_none.mp busy.1)⟩
      · have shown : ∀ b, f.lookupNode newdir newname = some b → hide = false := fun b foundNew => by
          rw [foundNew] at busy
          exact Bool.eq_false_iff.mpr fun hides => busy ⟨rfl, hides⟩
        obtain ⟨f₀, start, steady₀, cleared₀⟩ := unhashFound_spec steady fun b foundNew =>
          ⟨notRoot_of_named steady.sound (tree.lookupNode_eq_some_iff.mp foundNew).1,
            replaced (shown b foundNew) b foundNew⟩
        obtain ⟨f₁, unhashed, steady₁, cleared₁⟩ := @unhashFound_spec f₀ holds (some a) steady₀
          fun b here => by
            rw [← Option.some.inj here]
            exact ⟨notRoot, cleared₀.movable movable⟩
        have dir₁ := (dir.after cleared₀.changed).after cleared₁.changed
        have absent : f₁.lookupNode newdir newname = none := by
          by_contra again
          obtain ⟨b, again⟩ := Option.ne_none_iff_exists'.mp again
          have before := (cleared₁.lookupNode steady₀.sound.tree steady₁.sound.tree again).1
          obtain ⟨first, other⟩ := cleared₀.lookupNode tree steady₀.sound.tree before
          exact other first
        have nameable : ∀ b, some a = some b → Nameable f₁ b target newname := fun b here => by
          rw [← Option.some.inj here]
          exact nameable_of steady₁ dir₁ (Unlinked.nameless cleared₁) notRoot away
            (fun below => notBelow (cleared₀.below (cleared₁.below below))) absent
        obtain ⟨hashed, f₂, given, steady₂, named, refused⟩ :=
          @hashFound_spec f₁ holds (some a) target newdir newname allocs steady₁ dir₁.numbered nameable
        have moved : Changed holds { b | some a = some b ∨
            hide = false ∧ f.lookupNode newdir newname = some b } f f₂ :=
          ((cleared₀.changed.trans cleared₁.changed).trans named.changed).mono fun b => by
            rintro ((replaced | here) | here)
            · exact .inr ⟨shown b replaced, replaced⟩
            · exact .inl here
            · exact .inl here
        have gained : NoNewNames {(newdir, newname)} f f₂ := by
          have all := ((cleared₀.noNewNames tree steady₀.sound.tree).trans
            (cleared₁.noNewNames steady₀.sound.tree steady₁.sound.tree)).trans
            (named.noNewNames steady₁.sound.tree nameable dir₁.numbered)
          rwa [Set.empty_union, Set.empty_union] at all
        have first : f.names (olddir, oldname) = some a := found
        have present : f.names (olddir, oldname) ≠ none := by
          rw [first]
          exact Option.some_ne_none a
        have without : f₀.names = Function.update f.names (newdir, newname) none :=
          cleared₀.names tree steady₀.sound.tree rfl
        have clear : hide = true → f.names (newdir, newname) = none := fun hides => by
          by_contra occupied
          exact busy ⟨Option.isSome_iff_ne_none.mpr occupied, hides⟩
        have names₁ : ∀ moved, Function.update f₁.names (newdir, newname) moved =
            Function.update (Function.update f.names (olddir, oldname) none) (newdir, newname)
              moved := fun moved => by
          funext key
          rw [Function.update_apply, Function.update_apply, Function.update_apply,
            Unlinked.names_eq cleared₁ steady₀.sound.tree steady₁.sound.tree key,
            without, Function.update_apply]
          by_cases here : key = (newdir, newname)
          · rw [if_pos here, if_pos here]
          · rw [if_neg here, if_neg here, if_neg here]
            by_cases same : key = (olddir, oldname)
            · rw [if_pos same, same, if_pos first]
            · rw [if_neg same, if_neg fun again => same (names_injective tree again first)]
        have names₂ := named.names steady₁.sound.tree steady₂.sound.tree nameable dir₁.numbered absent
        have cleared : f₁.names = Function.update f₁.names (newdir, newname) none := by
          rw [← absent]
          exact (Function.update_eq_self _ _).symm
        change f₁.hashName allocs a newdir newname = some (hashed, f₂) at given
        change f₀.unhashName a = some f₁ at unhashed
        simp only [if_neg busy, start, unhashed, given, Option.bind_eq_bind, Option.bind_some]
        cases hashed with
        | false =>
            rw [if_neg Bool.false_ne_true, cleared, names₁] at names₂
            refine ⟨-12, f₂, rfl, steady₂, moved, gained, ?_⟩
            rw [names₂]
            exact .noMemory present clear (refused.mp rfl).2
        | true =>
            rw [if_pos rfl, names₁, ← first] at names₂
            have result : Renamed f.names (olddir, oldname) (newdir, newname) hide
                (allocs.Short newname) 0 f₂.names := by
              rw [names₂]
              refine .moved present clear fun short => ?_
              cases refused.mpr ⟨Option.some_ne_none a, short⟩
            cases hide with
            | false => exact ⟨0, f₂, rfl, steady₂, moved, gained, result⟩
            | true =>
                have marked : Changed holds ∅ f₂ (f₂.modify a fun node => { node with isHidden := true }) :=
                  changed_modify (fun _ => rfl) (fun _ => rfl) (fun _ => rfl) (fun _ => rfl)
                    fun _ _ => ⟨rfl, rfl⟩
                have same : (f₂.modify a fun node => { node with isHidden := true }).lookupNode =
                    f₂.lookupNode :=
                  lookupNode_modify (fun _ => rfl) (fun _ => rfl) (fun _ => rfl)
                have all := moved.trans marked
                rw [Set.union_empty] at all
                refine ⟨0, _, rfl, steady_hidden steady₂, all, fun d n b again => ?_, ?_⟩
                · rw [if_pos rfl, same] at again
                  exact gained d n b again
                · rw [if_pos rfl]
                  have names : (f₂.modify a fun node => { node with isHidden := true }).names =
                      f₂.names := funext fun key => congrFun (congrFun same key.1) key.2
                  rwa [names]

/-- What exchanging does to the names, with the error that it returns: it depends on nothing but
the names and whether the memory for the new and for the old name is short. -/
inductive Exchanged (names : Nat × Bytes → Option Nat) (old new : Nat × Bytes)
    (short short' : Prop) : Int → (Nat × Bytes → Option Nat) → Prop where
  | exchanged : (names old ≠ none → ¬ short) → (names new ≠ none → ¬ short') →
      Exchanged names old new short short' 0
        (Function.update (Function.update names new (names old)) old (names new))
  | halfway : (names old ≠ none → ¬ short) → names new ≠ none → short' →
      Exchanged names old new short short' (-12)
        (Function.update (Function.update names new (names old)) old none)
  | noMemory : names old ≠ none → short → Exchanged names old new short short' (-12)
      (Function.update (Function.update names new none) old none)

/-- Exchanging two names succeeds if both nodes can be moved to both directories. -/
theorem exchangeNode_spec (steady : Steady holds f) (old : KnownDir f olddir source)
    (new : KnownDir f newdir target) (apart : (olddir, oldname) ≠ (newdir, newname))
    (movable : ∀ a, f.lookupNode olddir oldname = some a →
      MovableTo f a source ∧ MovableTo f a target)
    (replaced : ∀ b, f.lookupNode newdir newname = some b →
      MovableTo f b source ∧ MovableTo f b target) :
    ∃ err f', f.exchangeNode allocs second olddir oldname newdir newname = some (err, f') ∧
      Steady holds f' ∧
      Changed holds { a | f.lookupNode olddir oldname = some a ∨
        f.lookupNode newdir newname = some a } f f' ∧
      NoNewNames {(newdir, newname), (olddir, oldname)} f f' ∧
      Exchanged f.names (olddir, oldname) (newdir, newname) (allocs.Short newname)
        (second.Short oldname) err f'.names := by
  have tree := steady.sound.tree
  have notRoot : ∀ {dir name a}, f.lookupNode dir name = some a → a ≠ rootNode := fun found =>
    notRoot_of_named steady.sound (tree.lookupNode_eq_some_iff.mp found).1
  have distinct : ∀ a, f.lookupNode olddir oldname = some a → f.lookupNode newdir newname ≠ some a := by
    intro a first second
    obtain ⟨-, up, on, numbered, called⟩ := tree.lookupNode_eq_some_iff.mp first
    obtain ⟨-, up', on', numbered', called'⟩ := tree.lookupNode_eq_some_iff.mp second
    rw [on] at on'
    rw [called] at called'
    obtain rfl := Option.some.inj on'
    rw [numbered] at numbered'
    exact apart (by rw [Option.some.inj numbered', Option.some.inj called'])
  obtain ⟨f₁, without, steady₁, cleared₁⟩ := unhashFound_spec steady fun a found =>
    ⟨notRoot found, (movable a found).1.movable⟩
  obtain ⟨f₂, nameless, steady₂, cleared₂⟩ := unhashFound_spec steady₁ fun b found =>
    ⟨notRoot found, cleared₁.movable (replaced b found).1.movable⟩
  have old₂ := (old.after cleared₁.changed).after cleared₂.changed
  have new₂ := (new.after cleared₁.changed).after cleared₂.changed
  have back : ∀ {dir name b}, f₂.lookupNode dir name = some b → f.lookupNode dir name = some b ∧
      f.lookupNode olddir oldname ≠ some b ∧ f.lookupNode newdir newname ≠ some b := by
    intro dir name b again
    obtain ⟨before, other⟩ := cleared₂.lookupNode steady₁.sound.tree steady₂.sound.tree again
    obtain ⟨first, other'⟩ := cleared₁.lookupNode tree steady₁.sound.tree before
    exact ⟨first, other', other⟩
  have below : ∀ {a b}, f₂.Below a b → f.Below a b := fun below =>
    cleared₁.below (cleared₂.below below)
  have absentNew : f₂.lookupNode newdir newname = none := by
    by_contra again
    obtain ⟨b, again⟩ := Option.ne_none_iff_exists'.mp again
    exact (back again).2.2 (back again).1
  have absentOld : f₂.lookupNode olddir oldname = none := by
    by_contra again
    obtain ⟨b, again⟩ := Option.ne_none_iff_exists'.mp again
    exact (back again).2.1 (back again).1
  have nameableNew : ∀ a, f.lookupNode olddir oldname = some a → Nameable f₂ a target newname := by
    intro a found
    obtain ⟨toOld, toNew⟩ := movable a found
    refine nameable_of steady₂ new₂ ?_ (notRoot found) toNew.away
      (fun wrong => toNew.notBelow (below wrong)) absentNew
    rw [found] at cleared₁
    exact cleared₂.nameless (cleared₂.movable (cleared₁.movable toNew.movable)) cleared₁.nameOf_self
  obtain ⟨moved, f₃, there, steady₃, given₃, refused₃⟩ :=
    @hashFound_spec f₂ holds (f.lookupNode olddir oldname) target newdir newname allocs steady₂
      new₂.numbered nameableNew
  have names₃ : NoNewNames {(newdir, newname)} f f₃ := by
    have all := ((cleared₁.noNewNames tree steady₁.sound.tree).trans
      (cleared₂.noNewNames steady₁.sound.tree steady₂.sound.tree)).trans
      (given₃.noNewNames steady₂.sound.tree nameableNew new₂.numbered)
    rwa [Set.empty_union, Set.empty_union] at all
  have changed₃ : Changed holds { a | f.lookupNode olddir oldname = some a ∨
      f.lookupNode newdir newname = some a } f f₃ :=
    ((cleared₁.changed.trans cleared₂.changed).trans given₃.changed).mono fun b => by
      rintro ((first | second) | first)
      · exact .inl first
      · exact .inr second
      · exact .inl first
  have without_old : f₁.names = Function.update f.names (olddir, oldname) none :=
    cleared₁.names tree steady₁.sound.tree rfl
  have without_new : f₂.names = Function.update f₁.names (newdir, newname) none :=
    cleared₂.names steady₁.sound.tree steady₂.sound.tree (by
      rw [without_old, Function.update_of_ne apart.symm]
      rfl)
  have with_new := given₃.names steady₂.sound.tree steady₃.sound.tree nameableNew new₂.numbered
    absentNew
  unfold Fuse.exchangeNode
  simp only [without, nameless, there, Option.bind_eq_bind, Option.bind_some]
  cases moved with
  | false =>
      refine ⟨-12, f₃, rfl, steady₃, changed₃, fun d n b again =>
        (names₃ d n b again).imp_right .inl, ?_⟩
      rw [with_new, if_neg Bool.false_ne_true, without_new, without_old,
        Function.update_comm apart]
      exact .noMemory (refused₃.mp rfl).1 (refused₃.mp rfl).2
  | true =>
      have hashed : Changed holds { a | f.lookupNode olddir oldname = some a } f₂ f₃ :=
        given₃.changed
      have old₃ := old₂.after hashed
      have absent₃ : f₃.lookupNode olddir oldname = none := by
        by_contra again
        obtain ⟨b, again⟩ := Option.ne_none_iff_exists'.mp again
        rcases given₃.noNewNames steady₂.sound.tree nameableNew new₂.numbered _ _ _ again with
          before | same
        · rw [absentOld] at before
          cases before
        · exact apart same
      have nameableOld : ∀ b, f.lookupNode newdir newname = some b →
          Nameable f₃ b source oldname := by
        intro b found
        obtain ⟨toOld, toNew⟩ := replaced b found
        refine nameable_of steady₃ old₃ ?_ (notRoot found) toOld.away (fun wrong => ?_) absent₃
        · refine given₃.nameless (fun wrong => distinct b wrong found) ?_
          rw [found] at cleared₂
          exact Unlinked.nameless cleared₂
        · rcases given₃.below wrong with before | ⟨a, here, either⟩
          · exact toOld.notBelow (below before)
          · have toOld' := (movable a here).1
            exact either.elim toOld'.away fun under => toOld'.notBelow (below under)
      have moves : f.names (olddir, oldname) ≠ none → ¬ allocs.Short newname := fun present short => by
        cases refused₃.mpr ⟨present, short⟩
      obtain ⟨done, f₄, here, steady₄, given₄, refused₄⟩ :=
        @hashFound_spec f₃ holds (f.lookupNode newdir newname) source olddir oldname second steady₃
          old₃.numbered nameableOld
      have changed₄ : Changed holds { a | f.lookupNode olddir oldname = some a ∨
          f.lookupNode newdir newname = some a } f f₄ :=
        (changed₃.trans given₄.changed).mono fun b => by
          rintro (either | second)
          · exact either
          · exact .inr second
      have names₄ := names₃.trans (given₄.noNewNames steady₃.sound.tree nameableOld old₃.numbered)
      have with_old := given₄.names steady₃.sound.tree steady₄.sound.tree nameableOld old₃.numbered
        absent₃
      have moved_names : ∀ moved, Function.update f₃.names (olddir, oldname) moved =
          Function.update (Function.update f.names (newdir, newname)
            (f.names (olddir, oldname))) (olddir, oldname) moved := fun moved => by
        rw [with_new, if_pos rfl, without_new, without_old, Function.update_idem,
          Function.update_comm apart, Function.update_idem]
        rfl
      simp only [here, Option.bind_some, if_true]
      refine ⟨_, f₄, rfl, steady₄, changed₄, names₄, ?_⟩
      cases done with
      | false =>
          have cleared : f₃.names = Function.update f₃.names (olddir, oldname) none := by
            rw [← absent₃]
            exact (Function.update_eq_self _ _).symm
          rw [with_old, if_neg Bool.false_ne_true, cleared, moved_names]
          exact .halfway moves (refused₄.mp rfl).1 (refused₄.mp rfl).2
      | true =>
          rw [with_old, if_pos rfl, moved_names]
          refine .exchanged moves fun present short => ?_
          cases refused₄.mpr ⟨present, short⟩

end Rename

end Libfuse

end NosqlFS
