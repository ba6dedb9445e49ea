import NosqlFS.Interaction.Obligation
import Mathlib.Data.List.Basic

/-!
# Pools of threads over one world

A pool interleaves the calls of any number of threads.  A history records which
thread made which call.  `Reaches.disciplined` lifts obligations discharged thread
by thread to every interleaving; `Reaches.runs` and `Reaches.of_runs` say that the
histories of finished pools are exactly the interleavings of complete runs.
-/

namespace Interaction

variable {Call : Type} {Answer : Call → Type} {Local World View Label α : Type}

/-- One invocation in progress.  The label stays fixed while the code shrinks. -/
structure Thread (Label : Type) (Call : Type) (Answer : Call → Type) (Local α : Type) where
  label : Label
  register : Local
  code : Program Call Answer Local α

/-- A thread that will make no further call. -/
def Thread.Finished (thread : Thread Label Call Answer Local α) : Prop :=
  ∃ register value, Returns thread.register thread.code register value

/-- A world shared by threads; a thread is named by its position for ever. -/
structure Pool (World Label : Type) (Call : Type) (Answer : Call → Type) (Local α : Type) where
  world : World
  threads : List (Thread Label Call Answer Local α)

/-- The calls of a pool in order, each with the thread that made it. -/
abbrev History (Call : Type) (Answer : Call → Type) : Type := List (Nat × Event Call Answer)

/-- The part of a history that one thread made. -/
def eventsOf (i : Nat) (history : History Call Answer) : Trace Call Answer :=
  history.filterMap fun entry => if entry.1 = i then some entry.2 else none

@[simp]
theorem eventsOf_nil (i : Nat) : eventsOf i ([] : History Call Answer) = [] := rfl

@[simp]
theorem eventsOf_append (i : Nat) (history later : History Call Answer) :
    eventsOf i (history ++ later) = eventsOf i history ++ eventsOf i later :=
  List.filterMap_append

@[simp]
theorem eventsOf_cons_self (i : Nat) (event : Event Call Answer) (history : History Call Answer) :
    eventsOf i ((i, event) :: history) = event :: eventsOf i history := by
  simp [eventsOf]

theorem eventsOf_cons_ne {i j : Nat} (hne : j ≠ i) (event : Event Call Answer)
    (history : History Call Answer) :
    eventsOf i ((j, event) :: history) = eventsOf i history := by
  simp [eventsOf, hne]

theorem eventsOf_map_self (i : Nat) (t : Trace Call Answer) : eventsOf i (t.map (Prod.mk i)) = t := by
  induction t with
  | nil => rfl
  | cons event t ih => rw [List.map_cons, eventsOf_cons_self, ih]

theorem eventsOf_map_ne {i j : Nat} (hne : j ≠ i) (t : Trace Call Answer) :
    eventsOf i (t.map (Prod.mk j)) = [] := by
  induction t with
  | nil => rfl
  | cons event t ih => rw [List.map_cons, eventsOf_cons_ne hne, ih]

namespace Pool

variable (started : Thread Label Call Answer Local α → Prop)
  (effect : World → Nat × Event Call Answer → World → Prop)

/-- A pool either starts a thread or lets one thread make its next call. -/
inductive Step : Pool World Label Call Answer Local α → Option (Nat × Event Call Answer) →
    Pool World Label Call Answer Local α → Prop where
  | start {pool : Pool World Label Call Answer Local α} (thread : Thread Label Call Answer Local α)
      (fresh : started thread) : Step pool none ⟨pool.world, pool.threads ++ [thread]⟩
  | emit {pool : Pool World Label Call Answer Local α} {i : Nat}
      {thread : Thread Label Call Answer Local α} {event : Event Call Answer} {register : Local}
      {code : Program Call Answer Local α} {world : World}
      (live : pool.threads[i]? = some thread)
      (emits : Emits thread.register thread.code event register code)
      (moves : effect pool.world (i, event) world) :
      Step pool (some (i, event)) ⟨world, pool.threads.set i ⟨thread.label, register, code⟩⟩

/-- Runs of a pool with their histories. -/
inductive Reaches : Pool World Label Call Answer Local α → History Call Answer →
    Pool World Label Call Answer Local α → Prop where
  | refl (pool : Pool World Label Call Answer Local α) : Reaches pool [] pool
  | start {first pool next : Pool World Label Call Answer Local α} {history : History Call Answer}
      (before : Reaches first history pool) (step : Step started effect pool none next) :
      Reaches first history next
  | emit {first pool next : Pool World Label Call Answer Local α} {history : History Call Answer}
      {entry : Nat × Event Call Answer} (before : Reaches first history pool)
      (step : Step started effect pool (some entry) next) :
      Reaches first (history ++ [entry]) next

variable {started effect}

theorem Reaches.head {first second last : Pool World Label Call Answer Local α}
    {entry : Nat × Event Call Answer} {history : History Call Answer}
    (step : Step started effect first (some entry) second)
    (reaches : Reaches started effect second history last) :
    Reaches started effect first (entry :: history) last := by
  induction reaches with
  | refl => exact .emit (.refl _) step
  | start _ next ih => exact .start ih next
  | emit _ next ih => exact .emit ih next

theorem Reaches.append {first middle last : Pool World Label Call Answer Local α}
    {history later : History Call Answer} (before : Reaches started effect first history middle)
    (after : Reaches started effect middle later last) :
    Reaches started effect first (history ++ later) last := by
  induction after with
  | refl => rwa [List.append_nil]
  | start _ next ih => exact .start ih next
  | emit _ next ih =>
      rw [← List.append_assoc]
      exact .emit ih next

/-- A property of pools that every step keeps holds along every run. -/
theorem Reaches.keeps {property : Pool World Label Call Answer Local α → Prop}
    (step : ∀ {pool entry next}, property pool → Step started effect pool entry next →
      property next)
    {first last : Pool World Label Call Answer Local α} {history : History Call Answer}
    (reaches : Reaches started effect first history last) (initial : property first) :
    property last := by
  induction reaches with
  | refl => exact initial
  | start _ next ih => exact step ih next
  | emit _ next ih => exact step ih next

/-! ## Discipline, thread by thread -/

section Discipline

variable (protocol : Label → Protocol Call Answer View)
  (post : Label → α → Local → View → Prop) (view : World → Nat → View) (idle : View)

/-- Every thread owes no more than its verification condition in its own view, and
threads that have not started see the idle view. -/
structure Disciplined (pool : Pool World Label Call Answer Local α) : Prop where
  owes : ∀ i thread, pool.threads[i]? = some thread →
    (protocol thread.label).wp thread.code (post thread.label) thread.register
      (view pool.world i)
  waiting : ∀ i, pool.threads.length ≤ i → view pool.world i = idle

/-- What the world must grant for views to be private: a permitted call moves the
caller's view as its protocol says and leaves every other view alone. -/
def Private (effect : World → Nat × Event Call Answer → World → Prop) : Prop :=
  ∀ label i event w w', (protocol label).permits (view w i) event.call →
    effect w (i, event) w' →
      (protocol label).after (view w i) event.call event.answer (view w' i) ∧
        ∀ j, j ≠ i → view w' j = view w j

variable {protocol post view idle} {pool next : Pool World Label Call Answer Local α}

/-- In a disciplined pool the next call of a thread is permitted. -/
theorem Disciplined.permits (disciplined : Disciplined protocol post view idle pool)
    {i : Nat} {thread : Thread Label Call Answer Local α} {event : Event Call Answer}
    {register : Local} {code : Program Call Answer Local α}
    (live : pool.threads[i]? = some thread)
    (emits : Emits thread.register thread.code event register code) :
    (protocol thread.label).permits (view pool.world i) event.call :=
  (Protocol.wp_emits emits (disciplined.owes i thread live)).1

/-- A finished thread of a disciplined pool has met its postcondition. -/
theorem Disciplined.finished (disciplined : Disciplined protocol post view idle pool)
    {i : Nat} {thread : Thread Label Call Answer Local α}
    (live : pool.threads[i]? = some thread) (finished : thread.Finished) :
    ∃ register value, post thread.label value register (view pool.world i) := by
  obtain ⟨register, value, returns⟩ := finished
  exact ⟨register, value, Protocol.wp_returns returns (disciplined.owes i thread live)⟩

theorem Disciplined.step
    (starts : ∀ thread, started thread →
      (protocol thread.label).wp thread.code (post thread.label) thread.register idle)
    (isolated : Private protocol view effect) {entry : Option (Nat × Event Call Answer)}
    (disciplined : Disciplined protocol post view idle pool)
    (step : Step started effect pool entry next) :
    Disciplined protocol post view idle next := by
  cases step with
  | start thread fresh =>
      refine ⟨?_, fun i bound => disciplined.waiting i ?_⟩
      · intro i other live
        rw [List.getElem?_append] at live
        split at live
        · exact disciplined.owes i other live
        · next outside =>
            have here : i = pool.threads.length := by
              have := (List.getElem?_eq_some_iff.mp live).1
              simp only [List.length_singleton] at this
              omega
            subst here
            simp only [Nat.sub_self, List.getElem?_cons_zero, Option.some.injEq] at live
            subst live
            rw [disciplined.waiting _ (Nat.le_refl _)]
            exact starts _ fresh
      · exact Nat.le_trans (by simp) bound
  | @emit i thread event register code world live emits moves =>
      have allowed := disciplined.permits live emits
      obtain ⟨own, others⟩ := isolated thread.label i event _ _ allowed moves
      have inside : i < pool.threads.length := (List.getElem?_eq_some_iff.mp live).1
      refine ⟨?_, fun j bound => ?_⟩
      · intro j other found
        by_cases same : j = i
        · subst same
          rw [List.getElem?_set_self inside, Option.some.injEq] at found
          subst found
          exact (Protocol.wp_emits emits (disciplined.owes j thread live)).2 _ own
        · rw [List.getElem?_set_ne (Ne.symm same)] at found
          rw [others j same]
          exact disciplined.owes j other found
      · simp only [List.length_set] at bound
        rw [others j (by omega)]
        exact disciplined.waiting j bound

/-- Obligations discharged thread by thread hold in every interleaving. -/
theorem Reaches.disciplined
    (starts : ∀ thread, started thread →
      (protocol thread.label).wp thread.code (post thread.label) thread.register idle)
    (isolated : Private protocol view effect) {history : History Call Answer}
    (reaches : Reaches started effect pool history next)
    (disciplined : Disciplined protocol post view idle pool) :
    Disciplined protocol post view idle next :=
  reaches.keeps (fun before step => before.step starts isolated step) disciplined

/-- What every permitted call keeps of the world holds along every run. -/
theorem Reaches.keeps_world {property : World → Prop}
    (starts : ∀ thread, started thread →
      (protocol thread.label).wp thread.code (post thread.label) thread.register idle)
    (isolated : Private protocol view effect)
    (kept : ∀ label i event w w', (protocol label).permits (view w i) event.call →
      effect w (i, event) w' → property w → property w')
    {history : History Call Answer} (reaches : Reaches started effect pool history next)
    (disciplined : Disciplined protocol post view idle pool) (initial : property pool.world) :
    property next.world := by
  have both : Disciplined protocol post view idle next ∧ property next.world := by
    refine @Reaches.keeps _ _ _ _ _ _ _ _
      (fun pool => Disciplined protocol post view idle pool ∧ property pool.world) ?_ _ _ _
      reaches ⟨disciplined, initial⟩
    rintro pool entry next ⟨disciplined, holds⟩ step
    refine ⟨disciplined.step starts isolated step, ?_⟩
    cases step with
    | start thread fresh => exact holds
    | emit live emits moves => exact kept _ _ _ _ _ (disciplined.permits live emits) moves holds
  exact both.2

end Discipline

/-! ## Histories are interleavings of complete runs -/

section Interleavings

variable {first last : Pool World Label Call Answer Local α} {history : History Call Answer}

/-- The world of a reached pool has followed the history. -/
theorem Reaches.follows (reaches : Reaches started effect first history last) :
    Follows effect first.world history last.world := by
  induction reaches with
  | refl => exact .nil _
  | start _ step ih =>
      cases step
      exact ih
  | emit _ step ih =>
      cases step with
      | emit live emits moves => exact follows_append_iff.mpr ⟨_, ih, .cons moves (.nil _)⟩

/-- Without new threads, whatever a thread still runs to completes its own part of
the history to a complete run of its initial code. -/
theorem Reaches.runs (never : ∀ thread, ¬ started thread)
    (reaches : Reaches started effect first history last) :
    last.threads.length = first.threads.length ∧
      ∀ i thread, first.threads[i]? = some thread → ∃ later,
        last.threads[i]? = some later ∧ later.label = thread.label ∧
          ∀ t register value, Exec later.register later.code t register value →
            Exec thread.register thread.code (eventsOf i history ++ t) register value := by
  induction reaches with
  | refl => exact ⟨rfl, fun i thread live => ⟨thread, live, rfl, fun t register value run => run⟩⟩
  | start _ step ih =>
      cases step with
      | start thread fresh => exact absurd fresh (never thread)
  | emit _ step ih =>
      cases step with
      | @emit j current event register code world live emits moves =>
          refine ⟨by rw [List.length_set]; exact ih.1, fun i thread found => ?_⟩
          obtain ⟨later, present, labelled, completes⟩ := ih.2 i thread found
          by_cases same : j = i
          · subst same
            have inside := (List.getElem?_eq_some_iff.mp live).1
            have current_eq : later = current := Option.some.inj (present.symm.trans live)
            subst current_eq
            refine ⟨_, List.getElem?_set_self inside, labelled, fun t register value run => ?_⟩
            simpa using completes _ _ _ (emits.exec run)
          · refine ⟨later, by rw [List.getElem?_set_ne same]; exact present, labelled, ?_⟩
            simpa [eventsOf_cons_ne same] using completes

/-- Without new threads, every call is made by one of the threads there were. -/
theorem Reaches.inside (never : ∀ thread, ¬ started thread)
    (reaches : Reaches started effect first history last) :
    ∀ entry ∈ history, entry.1 < first.threads.length := by
  induction reaches with
  | refl => exact fun entry member => absurd member List.not_mem_nil
  | start _ step ih =>
      cases step with
      | start thread fresh => exact absurd fresh (never thread)
  | emit before step ih =>
      intro entry member
      rcases List.mem_append.mp member with earlier | here
      · exact ih entry earlier
      · obtain rfl := List.mem_singleton.mp here
        rw [← (before.runs never).1]
        cases step with
        | emit live emits moves => exact (List.getElem?_eq_some_iff.mp live).1

/-- The complete runs in a history whose threads have all finished. -/
theorem Reaches.complete (never : ∀ thread, ¬ started thread)
    (reaches : Reaches started effect first history last)
    (finished : ∀ thread ∈ last.threads, thread.Finished) {i : Nat}
    {thread : Thread Label Call Answer Local α} (live : first.threads[i]? = some thread) :
    ∃ register value, Exec thread.register thread.code (eventsOf i history) register value := by
  obtain ⟨later, present, _, completes⟩ := (reaches.runs never).2 i thread live
  obtain ⟨register, value, returns⟩ := finished later (List.mem_of_getElem? present)
  have whole := completes [] register value (exec_nil_iff.mpr returns)
  rw [List.append_nil] at whole
  exact ⟨register, value, whole⟩

/-- A thread that is not there makes no call. -/
theorem Reaches.absent (never : ∀ thread, ¬ started thread)
    (reaches : Reaches started effect first history last) {i : Nat}
    (outside : first.threads[i]? = none) : eventsOf i history = [] := by
  refine List.filterMap_eq_nil_iff.mpr fun entry member => if_neg fun same => ?_
  have bound := reaches.inside never entry member
  have beyond := List.getElem?_eq_none_iff.mp outside
  omega

/-- Every interleaving of complete runs that the world follows is a history. -/
theorem Reaches.of_runs {threads : List (Thread Label Call Answer Local α)} {w w' : World}
    (inside : ∀ entry ∈ history, entry.1 < threads.length)
    (runs : ∀ i thread, threads[i]? = some thread →
      ∃ register value, Exec thread.register thread.code (eventsOf i history) register value)
    (follows : Follows effect w history w') :
    ∃ last : Pool World Label Call Answer Local α,
      Reaches started effect ⟨w, threads⟩ history last ∧ last.world = w' ∧
        ∀ thread ∈ last.threads, thread.Finished := by
  induction follows generalizing threads with
  | nil w =>
      refine ⟨_, .refl _, rfl, fun thread member => ?_⟩
      obtain ⟨i, bound, rfl⟩ := List.getElem_of_mem member
      obtain ⟨register, value, run⟩ := runs i _ (List.getElem?_eq_getElem bound)
      exact ⟨register, value, exec_nil_iff.mp run⟩
  | @cons w middle w' entry history moves rest ih =>
      obtain ⟨j, event⟩ := entry
      have bound : j < threads.length := inside _ List.mem_cons_self
      have live : threads[j]? = some threads[j] := List.getElem?_eq_getElem bound
      obtain ⟨register, value, run⟩ := runs j _ live
      rw [eventsOf_cons_self] at run
      obtain ⟨between, residual, emits, run⟩ := exec_cons_iff.mp run
      have step : Step started effect ⟨w, threads⟩ (some (j, event))
          ⟨middle, threads.set j ⟨threads[j].label, between, residual⟩⟩ := .emit live emits moves
      obtain ⟨last, reaches, world, finished⟩ := @ih
        (threads.set j ⟨threads[j].label, between, residual⟩)
        (fun entry member => by
          rw [List.length_set]
          exact inside _ (List.mem_cons_of_mem _ member))
        (fun i thread found => by
          by_cases same : j = i
          · subst same
            rw [List.getElem?_set_self bound, Option.some.injEq] at found
            subst found
            exact ⟨register, value, run⟩
          · rw [List.getElem?_set_ne same] at found
            obtain ⟨register, value, other⟩ := runs i thread found
            rw [eventsOf_cons_ne same] at other
            exact ⟨register, value, other⟩)
      exact ⟨last, reaches.head step, world, finished⟩

end Interleavings

end Pool

end Interaction
