import ZonedMemory.Traced

namespace ZonedMemory

/-!
What a computation answers, apart from what it reports. Every lemma about a traced function is
stated for its outcome, and the rules here carry such a statement through the steps of a `do` block.
-/

@[simp] theorem ok_bind {α β : Type} (a : α) (f : α → Except Fault β) :
    (Except.ok a >>= f) = f a := rfl

@[simp] theorem error_bind {α β : Type} (fault : Fault) (f : α → Except Fault β) :
    ((Except.error fault : Except Fault α) >>= f) = .error fault := rfl

@[simp] theorem pure_eq_ok {α : Type} (a : α) : (pure a : Except Fault α) = .ok a := rfl

@[simp] theorem throw_eq_error {α : Type} (fault : Fault) :
    (throw fault : Except Fault α) = .error fault := rfl

theorem bind_eq_ok {α β : Type} {m : Except Fault α} {f : α → Except Fault β} {b : β} :
    m >>= f = .ok b ↔ ∃ a, m = .ok a ∧ f a = .ok b := by
  cases m with
  | error fault => simp [error_bind]
  | ok a => simp [ok_bind]

namespace Traced

variable {α β : Type}

@[simp] theorem outcome_pure (a : α) : (pure a : Traced α).outcome = .ok a := rfl

@[simp] theorem outcome_bind (m : Traced α) (f : α → Traced β) :
    (m >>= f).outcome = m.outcome >>= fun a => (f a).outcome := by
  obtain ⟨events, outcome⟩ := m
  cases outcome with
  | error fault => rfl
  | ok a => rfl

@[simp] theorem outcome_lift (m : Except Fault α) : (liftM m : Traced α).outcome = m := rfl

@[simp] theorem outcome_report (event : Event) : (report event).outcome = .ok () := rfl

@[simp] theorem outcome_ite (c : Prop) [Decidable c] (m n : Traced α) :
    (if c then m else n).outcome = if c then m.outcome else n.outcome := by
  split <;> rfl

theorem lift_ok_bind (a : α) (f : α → Traced β) :
    ((liftM (Except.ok a : Except Fault α) : Traced α) >>= f) = f a := rfl

theorem bind_eq_ok {m : Traced α} {f : α → Traced β} {b : β} :
    (m >>= f).outcome = .ok b ↔ ∃ a, m.outcome = .ok a ∧ (f a).outcome = .ok b := by
  rw [outcome_bind, ZonedMemory.bind_eq_ok]

theorem events_bind {m : Traced α} {f : α → Traced β} {a : α} (answer : m.outcome = .ok a) :
    (m >>= f).events = m.events ++ (f a).events := by
  obtain ⟨events, outcome⟩ := m
  obtain rfl : outcome = .ok a := answer
  rfl

@[simp] theorem events_report (event : Event) : (report event).events = [event] := rfl

@[simp] theorem events_pure (a : α) : (pure a : Traced α).events = [] := rfl

@[simp] theorem events_lift (m : Except Fault α) : (liftM m : Traced α).events = [] := rfl

theorem mem_events_bind {m : Traced α} {f : α → Traced β} {event : Event} :
    event ∈ (m >>= f).events ↔
      event ∈ m.events ∨ ∃ a, m.outcome = .ok a ∧ event ∈ (f a).events := by
  obtain ⟨events, outcome⟩ := m
  cases outcome with
  | error fault =>
      change event ∈ events ↔ _
      simp
  | ok a => simp [events_bind (m := ⟨events, .ok a⟩) rfl]

/-- Every event that is reported on the way has a property. -/
structure Reports (m : Traced α) (P : Event → Prop) : Prop where
  holds : ∀ event ∈ m.events, P event

namespace Reports

variable {m : Traced α} {f : α → Traced β} {P : Event → Prop} {event : Event} {c : β}

theorem pure (a : α) : (Pure.pure a : Traced α).Reports P := ⟨fun _ none => nomatch none⟩

theorem lift (m : Except Fault α) : (liftM m : Traced α).Reports P := ⟨fun _ none => nomatch none⟩

theorem report (holds : P event) : (Traced.report event).Reports P := ⟨by simpa using holds⟩

theorem bind (first : m.Reports P) (rest : ∀ a, m.outcome = .ok a → (f a).Reports P) :
    (m >>= f).Reports P := by
  constructor
  intro event member
  rcases mem_events_bind.mp member with early | ⟨a, answer, late⟩
  · exact first.holds event early
  · exact (rest a answer).holds event late

/-- Where the whole comes to a value, so does what is left of it after its first step. -/
theorem bind_of (answer : (m >>= f).outcome = .ok c) (first : m.Reports P)
    (rest : ∀ a, (f a).outcome = .ok c → (f a).Reports P) : (m >>= f).Reports P := by
  obtain ⟨a, reached, remaining⟩ := Traced.bind_eq_ok.mp answer
  apply first.bind
  intro other again
  obtain rfl := Except.ok.inj (reached.symm.trans again)
  exact rest a remaining

/-- A step that reports nothing. -/
theorem compute {m : Except Fault α} (rest : ∀ a, m = .ok a → (f a).Reports P) :
    ((liftM m : Traced α) >>= f).Reports P :=
  (lift m).bind rest

theorem compute_of {m : Except Fault α} (answer : ((liftM m : Traced α) >>= f).outcome = .ok c)
    (rest : ∀ a, (f a).outcome = .ok c → (f a).Reports P) : ((liftM m : Traced α) >>= f).Reports P :=
  .bind_of answer (lift m) rest

end Reports

/-- The line of every event that is reported on the way can be written. -/
structure Written (m : Traced α) : Prop where
  written : ∀ event ∈ m.events, ∃ text, event.text = .ok text

namespace Written

variable {m : Traced α} {f : α → Traced β} {event : Event}

theorem pure (a : α) : (Pure.pure a : Traced α).Written := ⟨fun _ none => nomatch none⟩

theorem lift (m : Except Fault α) : (liftM m : Traced α).Written := ⟨fun _ none => nomatch none⟩

theorem report (written : ∃ text, event.text = .ok text) : (Traced.report event).Written :=
  ⟨by simpa using written⟩

theorem bind (first : m.Written) (rest : ∀ a, m.outcome = .ok a → (f a).Written) :
    (m >>= f).Written :=
  ⟨(Reports.bind ⟨first.written⟩ fun a answer => ⟨(rest a answer).written⟩).holds⟩

/-- A step that reports nothing. -/
theorem compute {m : Except Fault α} {f : α → Traced β} (rest : ∀ a, m = .ok a → (f a).Written) :
    ((liftM m : Traced α) >>= f).Written :=
  (lift m).bind rest

/-- A last report before the answer. -/
theorem answer {a : α} (written : ∃ text, event.text = .ok text) :
    (Traced.report event >>= fun _ => Pure.pure a).Written :=
  (report written).bind fun _ _ => .pure a

end Written

/-- A computation comes to a value, and the line of every event on the way can be written. -/
structure Answers (m : Traced α) (a : α) : Prop extends Written m where
  outcome : m.outcome = .ok a

namespace Answers

variable {m : Traced α} {f : α → Traced β} {a : α} {c : β} {event : Event}

theorem pure (a : α) : (Pure.pure a : Traced α).Answers a := ⟨.pure a, rfl⟩

theorem lift {m : Except Fault α} (computed : m = .ok a) : (liftM m : Traced α).Answers a :=
  ⟨.lift m, computed⟩

theorem report (written : ∃ text, event.text = .ok text) : (Traced.report event).Answers () :=
  ⟨.report written, rfl⟩

theorem bind (first : m.Answers a) (rest : (f a).Answers c) : (m >>= f).Answers c := by
  constructor
  · apply first.toWritten.bind
    intro other answer
    rw [Except.ok.inj (answer.symm.trans first.outcome)]
    exact rest.toWritten
  · rw [outcome_bind, first.outcome, ok_bind, rest.outcome]

theorem forM {f : β → Traced Unit} {list : List β} (each : ∀ x ∈ list, (f x).Answers ()) :
    (list.forM f).Answers () := by
  induction list with
  | nil => exact .pure ()
  | cons x rest ih =>
      obtain ⟨first, later⟩ := List.forall_mem_cons.mp each
      exact first.bind (ih later)

/-- Whoever reads along, at whatever threshold, gets the same value. -/
theorem read (answers : m.Answers a) (threshold : Option Level) : (m.read threshold).2 = .ok a := by
  obtain ⟨events, outcome⟩ := m
  have transcribed : (Event.transcribe threshold events).2 = .ok () := by
    have written := answers.written
    clear answers
    induction events with
    | nil => rfl
    | cons event rest ih =>
        obtain ⟨text, known⟩ := written event (by simp)
        have later := ih fun other member => written other (by simp_all)
        have line : event.line = .ok (event.level.word ++ " " ++ text) := by
          simp only [Event.line, known, ok_bind, pure_eq_ok]
        unfold Event.transcribe
        split
        · rw [line]
          exact later
        · exact later
  obtain rfl : outcome = .ok a := answers.outcome
  simp only [Traced.read]
  generalize Event.transcribe threshold events = written at transcribed
  obtain ⟨lines, result⟩ := written
  obtain rfl : result = .ok () := transcribed
  rfl

end Answers

/-- The computation comes to a value, whoever reads along and at whatever threshold. -/
def Completes (m : Traced α) : Prop := ∃ a, ∀ threshold, (m.read threshold).2 = .ok a

theorem Answers.completes {m : Traced α} {a : α} (answers : m.Answers a) : m.Completes :=
  ⟨a, answers.read⟩

theorem Written.completes {m : Traced α} {a : α} (written : m.Written) (answer : m.outcome = .ok a) :
    m.Completes :=
  Answers.completes ⟨written, answer⟩

theorem Completes.outcome {m : Traced α} (completes : m.Completes) : ∃ a, m.outcome = .ok a := by
  obtain ⟨a, completes⟩ := completes
  obtain ⟨events, outcome⟩ := m
  have answer := completes none
  simp only [Traced.read] at answer
  split at answer
  · cases answer
  · exact ⟨a, answer⟩

/-- What holds of the value of a computation, if it comes to one. -/
structure Yields (m : Traced α) (P : α → Prop) : Prop where
  holds : ∀ a, m.outcome = .ok a → P a

namespace Yields

variable {m : Traced α} {f : α → Traced β} {P : β → Prop} {Q R : α → Prop}

theorem pure {a : α} (holds : Q a) : (Pure.pure a : Traced α).Yields Q :=
  ⟨fun _ answer => Except.ok.inj answer ▸ holds⟩

theorem lift {m : Except Fault α} (computed : ∀ a, m = .ok a → Q a) : (liftM m : Traced α).Yields Q :=
  ⟨computed⟩

theorem bind (first : m.Yields Q) (rest : ∀ a, Q a → (f a).Yields P) : (m >>= f).Yields P := by
  constructor
  intro c answer
  obtain ⟨a, reached, answer⟩ := Traced.bind_eq_ok.mp answer
  exact (rest a (first.holds a reached)).holds c answer

/-- A step that may come to anything. -/
theorem step (rest : ∀ a, (f a).Yields P) : (m >>= f).Yields P :=
  .bind (Q := fun _ => True) ⟨fun _ _ => trivial⟩ fun a _ => rest a

theorem mono (yields : m.Yields Q) (weaker : ∀ a, Q a → R a) : m.Yields R :=
  ⟨fun a answer => weaker a (yields.holds a answer)⟩

end Yields

end Traced

theorem toOption_eq_some {ε α : Type} {m : Except ε α} {a : α} :
    m.toOption = some a ↔ m = .ok a := by
  cases m with
  | error reason => simp [Except.toOption]
  | ok value => simp [Except.toOption]

theorem map_eq_error {ε α β : Type} {f : α → β} {m : Except ε α} {reason : ε} :
    m.map f = .error reason ↔ m = .error reason := by
  cases m with
  | error other => simp [Except.map]
  | ok value => simp [Except.map]

end ZonedMemory
