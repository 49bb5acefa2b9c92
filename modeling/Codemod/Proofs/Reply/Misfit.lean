import Codemod.Model.Provider
import Codemod.Reply.Value

/-! Replies that are not turned away as useless but stop whoever reads them. Of a response, only an
over-long number does that, or a number or truth value where entries are looked for; of an answer, an
over-long number, a key that can change, or a sum that is too large. -/
theorem Except.bind_eq_error_iff {x : Except ε α} {f : α → Except ε β} {e : ε} :
    x.bind f = .error e ↔ x = .error e ∨ ∃ a, x = .ok a ∧ f a = .error e := by
  cases x <;> simp [Except.bind]

theorem Except.map_eq_error_iff {x : Except ε α} {f : α → β} {e : ε} :
    x.map f = .error e ↔ x = .error e := by
  cases x <;> simp [Except.map]

namespace Codemod

/-! Responses. -/

namespace Provider

/-- A number or a truth value that counts as given. -/
def Counts : Json → Prop
  | .bool b => b = true
  | .int n => n ≠ 0
  | .float x => (x == 0.0) = false
  | _ => False

theorem firstText?_eq_error_iff {container : Option Json} {m : Misfit} :
    firstText? container = .error m ↔ m = .notIterable ∧ ∃ v, container = some v ∧ Counts v := by
  constructor
  · intro h
    unfold firstText? at h
    split at h
    · cases h
    · cases h
    · cases h
      exact ⟨rfl, _, rfl, rfl⟩
    · split at h
      · cases h
      · next hn =>
        cases h
        exact ⟨rfl, _, rfl, hn⟩
    · split at h
      · cases h
      · next hx =>
        cases h
        exact ⟨rfl, _, rfl, by simpa [Counts] using hx⟩
    · cases h
  · rintro ⟨rfl, v, rfl, hv⟩
    cases v with
    | bool b => cases hv; rfl
    | int n => exact if_neg hv
    | float x => simp [firstText?, show (x == 0.0) = false from hv]
    | _ => cases hv

/-- A response without an outright text, with a number or truth value where entries are looked for. -/
def Bare (response : Json) : Prop :=
  spoken? (response.field? "output_text") = none ∧
    ((∃ v, response.field? "output" = some v ∧ Counts v) ∨
      firstText? (response.field? "output") = .ok none ∧
        ∃ v, response.field? "choices" = some v ∧ Counts v)

theorem responseText?_eq_error_iff {response : Json} {raw : String} {m : Misfit} :
    responseText? response raw = .error m ↔ m = .notIterable ∧ Bare response := by
  unfold responseText? Bare
  cases hs : spoken? (response.field? "output_text") with
  | some text => simp
  | none =>
    cases ho : firstText? (response.field? "output") with
    | error m' =>
      obtain ⟨rfl, hv⟩ := firstText?_eq_error_iff.1 ho
      simpa [bind, Except.bind, hv] using eq_comm
    | ok text? =>
      have hno : ¬ ∃ v, response.field? "output" = some v ∧ Counts v := by
        intro hv
        have := firstText?_eq_error_iff.2 ⟨rfl, hv⟩
        rw [ho] at this
        cases this
      cases text? with
      | some text => simp [bind, Except.bind, pure, Except.pure, hno]
      | none =>
        cases hc : firstText? (response.field? "choices") with
        | error m' =>
          obtain ⟨rfl, hv⟩ := firstText?_eq_error_iff.1 hc
          simpa [bind, Except.bind, hno, hv] using eq_comm
        | ok text? =>
          have hnc : ¬ ∃ v, response.field? "choices" = some v ∧ Counts v := by
            intro hv
            have := firstText?_eq_error_iff.2 ⟨rfl, hv⟩
            rw [hc] at this
            cases this
          simp [bind, Except.bind, pure, Except.pure, hno, hnc]

/-- A response cannot be looked through when it is JSON but for a number with too many digits, and one
of the responses of OpenAI also when it is bare. -/
theorem answer?_eq_error_iff {p : Provider} {raw : String} {m : Misfit} :
    p.answer? raw = .error m ↔ raw ≠ "" ∧
      (Json.parse raw = .error .tooManyDigits ∧ m = .tooManyDigits ∨
        p = .openai ∧ m = .notIterable ∧
          ∃ response, Json.parse raw = .ok response ∧ Bare response) := by
  unfold answer?
  by_cases hr : raw = ""
  · simp [hr]
  · have hr' : ¬ raw.isEmpty = true := by simpa using hr
    rw [if_neg hr']
    cases hj : Json.parse raw with
    | error e => cases e <;> simp [hr, eq_comm]
    | ok response =>
      cases p with
      | openai =>
        dsimp only
        rw [Except.map_eq_error_iff, responseText?_eq_error_iff]
        simp [hr]
      | anthropic =>
        dsimp only
        split <;> simp [hr]

end Provider

/-! Literals. -/

namespace Literal.Expr

theorem number_ne_misfit (e : Expr) (m : Misfit) : e.number ≠ .error (.misfit m) := by
  unfold number
  split <;> simp

theorem signedNumber_ne_misfit (e : Expr) (m : Misfit) : e.signedNumber ≠ .error (.misfit m) := by
  unfold signedNumber
  split
  · rw [Ne, Except.map_eq_error_iff]
    exact number_ne_misfit _ m
  · exact number_ne_misfit _ m

theorem of_addUp_misfit {minus : Bool} {left right : Datum} {m : Misfit}
    (h : addUp minus left right = .error (.misfit m)) : m = .beyondRange := by
  unfold addUp at h
  extract_lets at h
  split at h
  · cases h
  · dsimp only at h
    split at h
    · cases h
    · cases h
      rfl
  · cases h

theorem of_insertItem_misfit {items : List Datum} {v : Datum} {m : Misfit}
    (h : insertItem items v = .error (.misfit m)) : m = .notAKey := by
  unfold insertItem at h
  split at h
  · cases h
    rfl
  · cases h

theorem of_insertEntry_misfit {entries : List (Datum × Datum)} {k v : Datum} {m : Misfit}
    (h : insertEntry entries k v = .error (.misfit m)) : m = .notAKey := by
  unfold insertEntry at h
  split at h
  · cases h
    rfl
  · cases h

mutual

/-- A literal has no value when a key can change, or when a sum is too large. -/
theorem of_value_misfit {m : Misfit} : ∀ e : Expr, e.value = .error (.misfit m) →
    m = .notAKey ∨ m = .beyondRange
  | .constant _, h => by cases h
  | .signed negative e, h => absurd h (signedNumber_ne_misfit (.signed negative e) m)
  | .sum _ left right, h => by
    simp only [value, Except.bind_eq_error_iff] at h
    rcases h with h | ⟨l, -, h | ⟨r, -, h⟩⟩
    · exact absurd h (signedNumber_ne_misfit _ m)
    · exact absurd h (number_ne_misfit _ m)
    · exact .inr (of_addUp_misfit h)
  | .tuple items, h | .list items, h => by
    simp only [value, Except.map_eq_error_iff] at h
    exact of_values_misfit items h
  | .set items, h => by
    simp only [value, Except.map_eq_error_iff] at h
    exact of_setItems_misfit [] items h
  | .emptySet, h => by cases h
  | .dict entries, h => by
    simp only [value, Except.map_eq_error_iff] at h
    exact of_dictEntries_misfit [] entries h
  | .word _, h | .other, h => by cases h

theorem of_values_misfit {m : Misfit} : ∀ items : List Expr, values items = .error (.misfit m) →
    m = .notAKey ∨ m = .beyondRange
  | [], h => by cases h
  | e :: items, h => by
    simp only [values, Except.bind_eq_error_iff, Except.map_eq_error_iff] at h
    rcases h with h | ⟨_, -, h⟩
    · exact of_value_misfit e h
    · exact of_values_misfit items h

theorem of_setItems_misfit {m : Misfit} : ∀ (done : List Datum) (items : List Expr),
    setItems done items = .error (.misfit m) → m = .notAKey ∨ m = .beyondRange
  | _, [], h => by cases h
  | done, e :: items, h => by
    simp only [setItems, Except.bind_eq_error_iff] at h
    rcases h with h | ⟨v, -, h | ⟨done', -, h⟩⟩
    · exact of_value_misfit e h
    · exact .inl (of_insertItem_misfit h)
    · exact of_setItems_misfit done' items h

theorem of_dictEntries_misfit {m : Misfit} :
    ∀ (done : List (Datum × Datum)) (entries : List (Expr × Expr)),
      dictEntries done entries = .error (.misfit m) → m = .notAKey ∨ m = .beyondRange
  | _, [], h => by cases h
  | done, (k, e) :: entries, h => by
    simp only [dictEntries, Except.bind_eq_error_iff] at h
    rcases h with h | ⟨k', -, h | ⟨v, -, h | ⟨done', -, h⟩⟩⟩
    · exact of_value_misfit k h
    · exact of_value_misfit e h
    · exact .inl (of_insertEntry_misfit h)
    · exact of_dictEntries_misfit done' entries h

end

end Literal.Expr

/-! Answers. -/

/-- The misfits that reading an answer can come to. -/
def Misfit.OfAnswer (m : Misfit) : Prop := m = .tooManyDigits ∨ m = .notAKey ∨ m = .beyondRange

theorem Literal.of_parse?_misfit {cs : List Char} {m : Misfit} (h : parse? cs = .error m) :
    m.OfAnswer := by
  unfold parse? at h
  split at h
  · cases h
  · cases h
  · next m' hv =>
    cases h
    obtain ⟨e, -, he⟩ := Option.map_eq_some_iff.1 hv
    exact .inr (Expr.of_value_misfit e he)
  · split at h
    · cases h
      exact .inl rfl
    · cases h

namespace Reply

theorem of_valueOf?_misfit {text : List Char} {m : Misfit} (h : valueOf? text = .error m) :
    m.OfAnswer := by
  unfold valueOf? at h
  split at h
  · cases h
  · cases h
    exact .inl rfl
  · rw [Except.map_eq_error_iff] at h
    exact Literal.of_parse?_misfit h

theorem of_firstValue?_misfit {texts : List (List Char)} {m : Misfit}
    (h : firstValue? texts = .error m) : m.OfAnswer := by
  induction texts with
  | nil => cases h
  | cons text texts ih =>
    rw [firstValue?, Except.bind_eq_error_iff] at h
    rcases h with h | ⟨v, -, h⟩
    · exact of_valueOf?_misfit h
    · cases v with
      | none => exact ih h
      | some v => cases h

theorem of_candidates_misfit {text : List Char} {m : Misfit} (h : candidates text = .error m) :
    m = .tooManyDigits := by
  unfold candidates at h
  split at h <;> cases h
  rfl

/-- Reading an answer yields a value, or a useless reply, or one of three misfits. -/
theorem of_parse_error {answer : List Char} {f : Failure} (h : parse answer = .error f) :
    (∃ e, f = .reply e) ∨ ∃ m, f = .misfit m ∧ m.OfAnswer := by
  unfold parse at h
  dsimp only at h
  split at h
  · cases h
    exact .inl ⟨_, rfl⟩
  · split at h
    · next m hm =>
      cases h
      refine .inr ⟨m, rfl, ?_⟩
      rcases Except.bind_eq_error_iff.1 hm with hm | ⟨texts, -, hm⟩
      · exact .inl (of_candidates_misfit hm)
      · exact of_firstValue?_misfit hm
    · cases h
    · cases h
      exact .inl ⟨_, rfl⟩

end Reply
end Codemod
