import Codemod.Proofs.Source.Rename

/-! Renaming an element back. A text that has no live tag of the new name gets one for each tag that is
renamed and no other, so the way back meets exactly these and restores the text. -/
namespace Codemod.Source
open Text

/-! ## A text has one renamed form -/

/-- How a renamed text begins, read off the text it is made from. -/
theorem Renamed.inv {old new : List Char} {frames : List Frame} {behind : Option Char}
    {cs cs' : List Char} (h : Renamed old new frames behind cs cs') :
    (cs = [] ∧ cs' = []) ∨
    (∃ c rest, cs = c :: rest ∧ step frames c rest = none ∧ cs' = cs) ∨
    (∃ next c rest rest', cs = c :: rest ∧ cs' = c :: rest' ∧ step frames c rest = some next ∧
      (frames = [] → tagLead? old behind cs = none) ∧
        Renamed old new next (some c) rest rest') ∨
    (∃ lead rest rest', cs = lead ++ (old ++ rest) ∧ cs' = lead ++ (new ++ rest') ∧ frames = [] ∧
      tagLead? old behind cs = some lead ∧
        Renamed old new [] (lastOr behind (lead ++ old)) rest rest') := by
  cases h with
  | nil => exact .inl ⟨rfl, rfl⟩
  | stuck hstep => exact .inr (.inl ⟨_, _, rfl, hstep, rfl⟩)
  | keep hstep hno hrest => exact .inr (.inr (.inl ⟨_, _, _, _, rfl, rfl, hstep, hno, hrest⟩))
  | tag hlead hrest => exact .inr (.inr (.inr ⟨_, _, _, rfl, rfl, rfl, hlead, hrest⟩))

/-- A tag can be read on: where no frame is open the reader does not get stuck. -/
theorem step_nil_ne_none (c : Char) (rest : List Char) : step [] c rest ≠ none := by
  simp [step]

theorem Renamed.unique {old new : List Char} {frames : List Frame} {behind : Option Char}
    {cs first second : List Char} (h : Renamed old new frames behind cs first)
    (h' : Renamed old new frames behind cs second) : first = second := by
  induction h generalizing second with
  | nil =>
    obtain ⟨-, rfl⟩ | ⟨c, rest, hcs, -⟩ | ⟨next, c, rest, rest', hcs, -⟩ |
      ⟨lead, rest, rest', -, -, -, hlead, -⟩ := h'.inv
    · rfl
    · cases hcs
    · cases hcs
    · simp at hlead
  | @stuck frames behind c cs hstep =>
    obtain ⟨hcs, -⟩ | ⟨d, rest, -, -, rfl⟩ | ⟨next, d, rest, rest', hcs, -, hnext, -⟩ |
      ⟨lead, rest, rest', -, -, rfl, -⟩ := h'.inv
    · cases hcs
    · rfl
    · cases hcs
      rw [hstep] at hnext
      cases hnext
    · exact absurd hstep (step_nil_ne_none c cs)
  | @keep frames next behind c cs cs' hstep hno hrest ih =>
    obtain ⟨hcs, -⟩ | ⟨d, rest, hcs, hnone, -⟩ | ⟨next', d, rest, rest', hcs, rfl, hnext, -, hrest'⟩ |
      ⟨lead, rest, rest', -, -, hframes, hlead, -⟩ := h'.inv
    · cases hcs
    · cases hcs
      rw [hstep] at hnone
      cases hnone
    · cases hcs
      rw [hstep] at hnext
      cases hnext
      rw [ih hrest']
    · rw [hno hframes] at hlead
      cases hlead
  | @tag behind lead cs cs' hlead hrest ih =>
    obtain ⟨hcs, -⟩ | ⟨d, rest, hcs, hnone, -⟩ | ⟨next', d, rest, rest', -, -, -, hno, -⟩ |
      ⟨lead', rest, rest', hcs, rfl, -, hlead', hrest'⟩ := h'.inv
    · rw [hcs] at hlead
      simp at hlead
    · exact absurd hnone (step_nil_ne_none d rest)
    · rw [hno rfl] at hlead
      cases hlead
    · rw [hlead] at hlead'
      cases hlead'
      obtain rfl : cs = rest := List.append_cancel_left (List.append_cancel_left hcs)
      rw [ih hrest']

/-! ## The way back -/

/-- A text without live tags of a name has none anywhere that the reader comes to. -/
theorem tagFree_of_forall {name : List Char} {frames : List Frame} {behind : Option Char}
    {cs : List Char} (h : ∀ before rest, cs = before ++ rest → framesAfter frames before rest = some [] →
      tagLead? name (lastOr behind before) rest = none) : TagFree name frames behind cs := by
  induction cs generalizing frames behind with
  | nil => trivial
  | cons c cs ih =>
    refine ⟨fun hframes => ?_, fun next hstep => ih fun before rest hcs hafter => ?_⟩
    · subst hframes
      exact h [] (c :: cs) rfl rfl
    · subst hcs
      have hcons := h (c :: before) rest rfl (by rw [framesAfter, hstep, Option.bind_some, hafter])
      rwa [lastOr_cons] at hcons

theorem tagFree_iff {name text : List Char} :
    TagFree name [] none text ↔ ∀ i, ¬ LiveTag name text i := by
  refine ⟨fun h => not_liveTag_of_tagFree h, fun h => tagFree_of_forall fun before rest hcs hafter => ?_⟩
  by_contra hsome
  subst hcs
  exact h before.length (liveTag_iff.2 ⟨hafter, Option.isSome_iff_ne_none.2 hsome⟩)

/-- A part that the reader comes to is free of tags when the whole is. -/
theorem TagFree.rest {name : List Char} {frames next : List Frame} {behind : Option Char}
    {before rest : List Char} (h : TagFree name frames behind (before ++ rest))
    (hframes : framesAfter frames before rest = some next) :
    TagFree name next (lastOr behind before) rest := by
  induction before generalizing frames behind with
  | nil =>
    cases hframes
    exact h
  | cons c before ih =>
    rw [framesAfter] at hframes
    obtain ⟨after, hstep, hafter⟩ := Option.bind_eq_some_iff.1 hframes
    rw [lastOr_cons]
    exact ih (h.2 after hstep) hafter

/-- Whether a tag of a name stands at its lead is settled by what follows the name. -/
theorem tagLead?_of_renamed {old new lead cs cs' : List Char} {behind : Option Char}
    (hold : TagName old) (hnew : TagName new)
    (hlead : tagLead? old behind (lead ++ (old ++ cs)) = some lead)
    (hhead : cs'.head? = cs.head?) (htrim : (trimLeft cs').head? = (trimLeft cs).head?) :
    tagLead? new behind (lead ++ (new ++ cs')) = some lead := by
  have hafter (front name rest : List Char) :
      after? (front ++ name) (front ++ (name ++ rest)) = some rest := by
    rw [after?_eq_some_iff, List.append_assoc]
  obtain ⟨rfl | rfl, -⟩ := tagLead?_eq_some hlead
  · rw [tagLead?_eq_opening_iff] at hlead ⊢
    obtain ⟨hbehind, -, rest, heq, c, tail, rfl, hc⟩ := openingTag_eq_some hlead
    obtain rfl : cs = c :: tail := List.append_cancel_left (List.cons.inj heq).2
    obtain ⟨tail', rfl⟩ : ∃ tail', cs' = c :: tail' := List.head?_eq_some_iff.1 hhead
    have hread : after? ('<' :: new) (['<'] ++ (new ++ c :: tail')) = some (c :: tail') :=
      hafter ['<'] new _
    have hends : (isBlank c || c == '/' || c == '>') = true := by
      simpa [or_assoc] using hc
    rw [openingTag, hbehind, hread]
    simp [hends]
  · rw [tagLead?_eq_closing_iff hold] at hlead
    rw [tagLead?_eq_closing_iff hnew]
    have hread : after? ('<' :: '/' :: new) (['<', '/'] ++ (new ++ cs')) = some cs' :=
      hafter ['<', '/'] new _
    have hread' : after? ('<' :: '/' :: old) (['<', '/'] ++ (old ++ cs)) = some cs :=
      hafter ['<', '/'] old _
    rw [closingTag, hread'] at hlead
    rw [closingTag, hread]
    simp only [Option.ite_none_right_eq_some] at hlead ⊢
    exact ⟨by rw [htrim]; exact hlead.1, trivial⟩

/-- A text is its renamed form renamed back, when it has no tag of the new name itself. -/
theorem Renamed.symm {old new : List Char} (hold : TagName old) (hnew : TagName new)
    {frames : List Frame} {behind : Option Char} {cs cs' : List Char}
    (h : Renamed old new frames behind cs cs') (hfree : TagFree new frames behind cs)
    {behind' : Option Char} (hb : behind' = behind ∨ cs.head? ≠ some '<') :
    Renamed new old frames behind' cs' cs := by
  -- the character behind a tag is another one on the way back, and no tag can follow it
  induction h generalizing behind' with
  | nil => exact .nil
  | stuck hstep => exact .stuck hstep
  | @keep frames next behind c cs cs' hstep hno hrest ih =>
    refine .keep ((hrest.step_eq hold hnew frames c).trans hstep) (fun hframes => ?_)
      (ih (hfree.2 next hstep) (.inl rfl))
    by_cases hc : c = '<'
    · subst hc
      obtain rfl : behind' = behind := hb.resolve_right (by simp)
      rw [← tagLead?_stem hnew, hrest.stem_eq, tagLead?_stem hnew]
      exact hfree.1 hframes
    · exact tagLead?_eq_none hc _
  | @tag behind lead cs cs' hlead hrest ih =>
    obtain ⟨hl, rest, heq, hend⟩ := tagLead?_eq_some hlead
    obtain rfl : cs = rest := by simpa using heq
    obtain rfl : behind' = behind := hb.resolve_right (by rcases hl with rfl | rfl <;> simp)
    have hhead : cs'.head? = cs.head? := (hrest.sameAhead hold hnew).head
    have htrim : (trimLeft cs').head? = (trimLeft cs).head? := by
      rw [← trimLeft_stem, hrest.stem_eq, trimLeft_stem]
    have hrest' : TagFree new [] (lastOr behind' (lead ++ old)) cs := by
      rw [← List.append_assoc] at hfree
      exact hfree.rest (framesAfter_plain (plain_tag hl hold cs))
    exact .tag (tagLead?_of_renamed hold hnew hlead hhead htrim) (ih hrest' (.inr hend.head?_ne))

/-- Renaming an element and then renaming it back restores the text, when the text has no live tag of
the new name. -/
theorem renameElement_restores {text old new : List Char} (hold : TagName old) (hnew : TagName new)
    (hne : old ≠ new) (hfree : ∀ i, ¬ LiveTag new text i) :
    renameElement (renameElement text old new) new old = text := by
  have hback : Renamed new old [] none (renameElement text old new) text :=
    (renamed_renameElement hold hnew hne).symm hold hnew (tagFree_iff.2 hfree) (.inl rfl)
  exact (renamed_renameElement hnew hold hne.symm).unique hback

instance (name text : List Char) (i : Nat) : Decidable (LiveTag name text i) :=
  inferInstanceAs (Decidable (_ ∧ _))

/-- Tags are looked for inside the text only. -/
theorem forall_not_liveTag_iff {name text : List Char} :
    (∀ i, ¬ LiveTag name text i) ↔ ∀ i < text.length, ¬ LiveTag name text i := by
  refine ⟨fun h i _ => h i, fun h i hlive => ?_⟩
  by_cases hi : i < text.length
  · exact h i hi hlive
  · rw [LiveTag, List.drop_eq_nil_of_le (by omega)] at hlive
    exact absurd hlive.2 (by simp)

/-- A comment and a string hold the new name, and type arguments the old one; the way back passes them
over. -/
theorem renameElement_restores_sample :
    TagName "Switch".toList ∧ TagName "Routes".toList ∧ "Switch".toList ≠ "Routes".toList ∧
    (∀ i, ¬ LiveTag "Routes".toList
      "f<Switch>(x) // <Routes>\n<Switch a='<Routes>'></Switch >".toList i) ∧
    renameElement "f<Switch>(x) // <Routes>\n<Switch a='<Routes>'></Switch >".toList
        "Switch".toList "Routes".toList =
      "f<Switch>(x) // <Routes>\n<Routes a='<Routes>'></Routes >".toList ∧
    renameElement "f<Switch>(x) // <Routes>\n<Routes a='<Routes>'></Routes >".toList
        "Routes".toList "Switch".toList =
      "f<Switch>(x) // <Routes>\n<Switch a='<Routes>'></Switch >".toList := by
  have hold : TagName "Switch".toList := ⟨by decide, List.all_iff_forall_prop.1 (by decide)⟩
  have hnew : TagName "Routes".toList := ⟨by decide, List.all_iff_forall_prop.1 (by decide)⟩
  have hne : "Switch".toList ≠ "Routes".toList := by decide
  have hfree : ∀ i, ¬ LiveTag "Routes".toList
      "f<Switch>(x) // <Routes>\n<Switch a='<Routes>'></Switch >".toList i := by
    rw [forall_not_liveTag_iff]
    decide +kernel
  have hrenamed : renameElement "f<Switch>(x) // <Routes>\n<Switch a='<Routes>'></Switch >".toList
      "Switch".toList "Routes".toList =
        "f<Switch>(x) // <Routes>\n<Routes a='<Routes>'></Routes >".toList := by
    rw [renameElement_eq hold hnew hne]
    decide +kernel
  have hback := renameElement_restores hold hnew hne hfree
  rw [hrenamed] at hback
  exact ⟨hold, hnew, hne, hfree, hrenamed, hback⟩

end Codemod.Source
