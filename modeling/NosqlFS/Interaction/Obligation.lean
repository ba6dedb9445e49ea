import NosqlFS.Interaction.Environment

/-!
# What a program is obliged to do

`All` and `Makes` speak about the calls alone.  `Protocol.wp` is the verification
condition of a program under a protocol: which calls a view permits, and which
views an answer may lead to.  The view is the part of the world that a program
knows about; everything else may change at any time.
-/

namespace Interaction

variable {Call : Type} {Answer : Call → Type} {Local View : Type} {α β : Type}

/-! ## Conditions on calls alone -/

/-- Every call the program can make satisfies the condition. -/
def All (condition : Call → Prop) {α : Type} : Program Call Answer Local α → Prop
  | .done _ => True
  | .call c next => condition c ∧ ∀ answer, All condition (next answer)
  | .read next => ∀ register, All condition (next register)
  | .write _ next => All condition next
  | .loop body next => All condition body ∧ All condition next

/-- Every complete run of the program makes a call satisfying the condition. -/
def Makes (condition : Call → Prop) {α : Type} : Program Call Answer Local α → Prop
  | .done _ => False
  | .call c next => condition c ∨ ∀ answer, Makes condition (next answer)
  | .read next => ∀ register, Makes condition (next register)
  | .write _ next => Makes condition next
  | .loop _ next => Makes condition next

section Calls

variable {condition : Call → Prop}

theorem All.andThen {program : Program Call Answer Local α}
    {rest : α → Program Call Answer Local β} (first : All condition program)
    (second : ∀ value, All condition (rest value)) : All condition (program.andThen rest) := by
  induction program with
  | done value => exact second value
  | call c next ih => exact ⟨first.1, fun answer => ih answer (first.2 answer) second⟩
  | read next ih => exact fun register => ih register (first register) second
  | write stored next ih => exact ih first second
  | loop body next _ ih => exact ⟨first.1, ih first.2 second⟩

theorem Makes.andThen_left {program : Program Call Answer Local α}
    {rest : α → Program Call Answer Local β} (makes : Makes condition program) :
    Makes condition (program.andThen rest) := by
  induction program with
  | done value => exact makes.elim
  | call c next ih => exact makes.imp_right fun later answer => ih answer (later answer)
  | read next ih => exact fun register => ih register (makes register)
  | write stored next ih => exact ih makes
  | loop body next _ ih => exact ih makes

theorem Makes.andThen_right {program : Program Call Answer Local α}
    {rest : α → Program Call Answer Local β} (makes : ∀ value, Makes condition (rest value)) :
    Makes condition (program.andThen rest) := by
  induction program with
  | done value => exact makes value
  | call c next ih => exact .inr fun answer => ih answer makes
  | read next ih => exact fun register => ih register makes
  | write stored next ih => exact ih makes
  | loop body next _ ih => exact ih makes

theorem Exec.all {program : Program Call Answer Local α} {s s' : Local} {t : Trace Call Answer}
    {value : α} (run : Exec s program t s' value) (all : All condition program) :
    ∀ event ∈ t, condition event.call := by
  induction run with
  | done => exact fun event member => absurd member List.not_mem_nil
  | call answer _ ih =>
      intro event member
      obtain rfl | member := List.mem_cons.mp member
      · exact all.1
      · exact ih (all.2 answer) event member
  | read _ ih => exact ih (all _)
  | write _ ih => exact ih all
  | stop _ _ ihPass ihRest =>
      intro event member
      exact (List.mem_append.mp member).elim (ihPass all.1 event) (ihRest all.2 event)
  | again _ _ ihPass ihRest =>
      intro event member
      exact (List.mem_append.mp member).elim (ihPass all.1 event) (ihRest all event)

theorem Exec.makes {program : Program Call Answer Local α} {s s' : Local}
    {t : Trace Call Answer} {value : α} (run : Exec s program t s' value)
    (makes : Makes condition program) : ∃ event ∈ t, condition event.call := by
  induction run with
  | done => exact makes.elim
  | call answer _ ih =>
      obtain here | later := makes
      · exact ⟨_, List.mem_cons_self, here⟩
      · obtain ⟨event, member, holds⟩ := ih (later answer)
        exact ⟨event, List.mem_cons_of_mem _ member, holds⟩
  | read _ ih => exact ih (makes _)
  | write _ ih => exact ih makes
  | stop _ _ _ ihRest =>
      obtain ⟨event, member, holds⟩ := ihRest makes
      exact ⟨event, List.mem_append_right _ member, holds⟩
  | again _ _ _ ihRest =>
      obtain ⟨event, member, holds⟩ := ihRest makes
      exact ⟨event, List.mem_append_right _ member, holds⟩

end Calls

/-! ## Verification conditions under a protocol -/

/-- Which calls a view permits, and which views an answer may lead to. -/
structure Protocol (Call : Type) (Answer : Call → Type) (View : Type) where
  permits : View → Call → Prop
  after : View → (c : Call) → Answer c → View → Prop

namespace Protocol

variable (protocol : Protocol Call Answer View)

/-- Every call is permitted where it is made, and a returned value meets `post`.
A loop is discharged by an invariant of register and view. -/
def wp {α : Type} : Program Call Answer Local α → (α → Local → View → Prop) →
    Local → View → Prop
  | .done value, post, s, view => post value s view
  | .call c next, post, s, view => protocol.permits view c ∧
      ∀ answer view', protocol.after view c answer view' → wp (next answer) post s view'
  | .read next, post, s, view => wp (next s) post s view
  | .write stored next, post, _, view => wp next post stored view
  | .loop body next, post, s, view => ∃ invariant : Local → View → Prop, invariant s view ∧
      ∀ s view, invariant s view → wp body (fun again s' view' =>
        if again then invariant s' view' else wp next post s' view') s view

variable {protocol} {post : α → Local → View → Prop} {s s' : Local} {view view' : View}

theorem wp_mono {program : Program Call Answer Local α} {weaker : α → Local → View → Prop}
    (implies : ∀ value s view, post value s view → weaker value s view)
    (holds : protocol.wp program post s view) : protocol.wp program weaker s view := by
  induction program generalizing s view with
  | done value => exact implies value s view holds
  | call c next ih =>
      exact ⟨holds.1, fun answer view' after => ih answer implies (holds.2 answer view' after)⟩
  | read next ih => exact ih s implies holds
  | write stored next ih => exact ih implies holds
  | loop body next ihBody ih =>
      obtain ⟨invariant, initial, pass⟩ := holds
      refine ⟨invariant, initial, fun s view inside => ihBody ?_ (pass s view inside)⟩
      intro again s view reached
      cases again with
      | false => exact ih implies reached
      | true => exact reached

@[simp]
theorem wp_andThen {program : Program Call Answer Local α}
    {rest : α → Program Call Answer Local β} {post : β → Local → View → Prop} :
    protocol.wp (program.andThen rest) post s view ↔
      protocol.wp program (fun value s view => protocol.wp (rest value) post s view) s view := by
  induction program generalizing s view with
  | done value => exact Iff.rfl
  | call c next ih =>
      exact and_congr_right fun _ => forall_congr' fun answer => forall_congr' fun view' =>
        imp_congr_right fun _ => ih answer
  | read next ih => exact ih s
  | write stored next ih => exact ih
  | loop body next _ ih =>
      have same : (fun s view => protocol.wp (next.andThen rest) post s view) =
          fun s view => protocol.wp next
            (fun value s view => protocol.wp (rest value) post s view) s view :=
        funext fun s => funext fun view => propext ih
      simp only [Program.loop_andThen, wp]
      simp only [congrFun (congrFun same _) _]

/-- A program whose calls are permitted in this view and leave it alone. -/
theorem wp_of_all {condition : Call → Prop} {program : Program Call Answer Local α}
    (neutral : ∀ c, condition c → protocol.permits view c ∧
      ∀ answer view', protocol.after view c answer view' → view' = view)
    (all : All condition program) :
    protocol.wp program (fun _ _ view' => view' = view) s view := by
  induction program generalizing s with
  | done value => rfl
  | call c next ih =>
      refine ⟨(neutral c all.1).1, fun answer view' after => ?_⟩
      obtain rfl := (neutral c all.1).2 answer view' after
      exact ih answer (all.2 answer)
  | read next ih => exact ih s (all s)
  | write stored next ih => exact ih all
  | loop body next ihBody ih =>
      refine ⟨fun _ view' => view' = view, rfl, fun s view' same => ?_⟩
      subst same
      refine wp_mono ?_ (ihBody all.1)
      intro again s view' same
      cases again with
      | false =>
          subst same
          exact ih all.2
      | true => exact same

theorem wp_unrolled {body : Program Call Answer Local Bool} {next : Program Call Answer Local α}
    (holds : protocol.wp (.loop body next) post s view) :
    protocol.wp (Program.unrolled body next) post s view := by
  obtain ⟨invariant, initial, pass⟩ := holds
  rw [Program.unrolled, wp_andThen]
  refine wp_mono ?_ (pass s view initial)
  intro again s view reached
  cases again with
  | false => exact reached
  | true => exact ⟨invariant, reached, pass⟩

/-- An emitted call is permitted, and the obligation passes to the residual program. -/
theorem wp_emits {program residual : Program Call Answer Local α} {event : Event Call Answer}
    (emits : Emits s program event s' residual) (holds : protocol.wp program post s view) :
    protocol.permits view event.call ∧
      ∀ view', protocol.after view event.call event.answer view' →
        protocol.wp residual post s' view' := by
  induction emits with
  | call answer => exact ⟨holds.1, holds.2 answer⟩
  | read _ ih => exact ih holds
  | write _ ih => exact ih holds
  | unroll _ ih => exact ih (wp_unrolled holds)

theorem wp_returns {program : Program Call Answer Local α} {value : α}
    (returns : Returns s program s' value) (holds : protocol.wp program post s view) :
    post value s' view := by
  induction returns with
  | done => exact holds
  | read _ ih => exact ih holds
  | write _ ih => exact ih holds
  | unroll _ ih => exact ih (wp_unrolled holds)

end Protocol

end Interaction
