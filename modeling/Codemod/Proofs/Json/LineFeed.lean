import Codemod.Proofs.Json.RoundTrip

/-! A writer breaks lines with line feeds alone: a carriage return inside a string is escaped, and nothing
else could hold one. -/
namespace Codemod.Json
open Text Number

theorem not_mem_of_atoms {cs : List Char} (h : ∀ c ∈ cs, isAtomChar c = true) : '\r' ∉ cs :=
  fun hmem => absurd (h _ hmem) (by decide)

theorem isAtomChar_of_isDigit {c : Char} (h : c.isDigit = true) : isAtomChar c = true :=
  isAtomChar_of_isAsciiDigit h

theorem Exponent.text_atoms (e : Exponent) : ∀ c ∈ e.text, isAtomChar c = true := by
  rw [text, List.forall_mem_cons, List.forall_mem_cons]
  refine ⟨by decide, ?_, fun c hc => isAtomChar_of_isDigit (e.ascii c hc)⟩
  split <;> decide

theorem Numeral.text_atoms (n : Numeral) : ∀ c ∈ n.text, isAtomChar c = true := by
  rw [text, List.forall_mem_append, List.forall_mem_append]
  refine ⟨fun c hc => isAtomChar_of_isDigit (n.whole_ascii c hc), ?_, ?_⟩
  · unfold fractionText
    split
    · simp
    · exact List.forall_mem_cons.2 ⟨by decide, fun c hc => isAtomChar_of_isDigit (n.fraction_ascii c hc)⟩
  · unfold exponentText
    cases n.exponent with
    | none => simp
    | some e => exact e.text_atoms

theorem signed_atoms {cs : List Char} (h : ∀ c ∈ cs, isAtomChar c = true) (negative : Bool) :
    ∀ c ∈ signed negative cs, isAtomChar c = true := by
  unfold signed
  split
  · exact List.forall_mem_cons.2 ⟨by decide, h⟩
  · exact h

theorem floatText_atoms (x : Float) : ∀ c ∈ (floatText x).toList, isAtomChar c = true := by
  unfold floatText
  split
  · exact List.all_eq_true.1 rfl
  · split <;> exact List.all_eq_true.1 rfl
  · next negative m q hx =>
    obtain ⟨n, hn⟩ := exists_spells (shortest m q)
    rw [spellShortest, hx, String.toList_ofList]
    dsimp only
    rw [← hn.text]
    exact signed_atoms n.text_atoms negative

/-- Between its quotes a string has no control character. -/
theorem not_mem_quote (ascii : Bool) (s : String) : '\r' ∉ (quote ascii s).toList := by
  obtain ⟨raw, hraw, he⟩ := exists_of_stringBody (stringBody_escaped ascii s.toList [])
  have hsame : s.toList.flatMap (fun c => (escapeChar ascii c).toList) = raw := by
    rw [List.take_zero, List.nil_append] at he
    exact List.append_cancel_right he
  rw [quote_toList, hsame]
  intro hmem
  rcases List.mem_cons.1 hmem with h | hmem
  · cases h
  · rcases List.mem_append.1 hmem with h | h
    · exact absurd (hraw.no_control _ h) (by decide)
    · cases List.mem_singleton.1 h

theorem not_mem_newline (layout : Layout) (level : Nat) : '\r' ∉ (newline layout level).toList := by
  unfold newline
  split
  · simp
  · simp only [String.toList_append, String.toList_ofList, List.mem_append, not_or]
    exact ⟨by simp, fun hmem => absurd (List.eq_of_mem_replicate hmem) (by decide)⟩

theorem not_mem_intercalate {c : Char} {sep : List Char} {pieces : List (List Char)} (hsep : c ∉ sep)
    (hpieces : ∀ p ∈ pieces, c ∉ p) : c ∉ sep.intercalate pieces := by
  induction pieces with
  | nil => simp
  | cons p pieces ih =>
    rw [List.forall_mem_cons] at hpieces
    cases pieces with
    | nil =>
      rw [List.intercalate_singleton]
      exact hpieces.1
    | cons p' pieces =>
      rw [List.intercalate_cons_cons, List.mem_append, List.mem_append, not_or, not_or]
      exact ⟨⟨hpieces.1, hsep⟩, ih hpieces.2⟩

section
variable {layout : Layout} (hcomma : '\r' ∉ layout.comma.toList) (hcolon : '\r' ∉ layout.colon.toList)

include hcomma in
theorem not_mem_bracketed (level : Nat) {left right : String} (hleft : '\r' ∉ left.toList)
    (hright : '\r' ∉ right.toList) {texts : List String} (htexts : ∀ t ∈ texts, '\r' ∉ t.toList) :
    '\r' ∉ (bracketed layout level left right texts).toList := by
  by_cases hne : texts = []
  · rw [hne, bracketed_nil_toList, List.mem_append, not_or]
    exact ⟨hleft, hright⟩
  · have hsep : '\r' ∉ layout.comma.toList ++ (newline layout (level + 1)).toList := by
      rw [List.mem_append, not_or]
      exact ⟨hcomma, not_mem_newline layout (level + 1)⟩
    have hpieces : ∀ p ∈ texts.map String.toList, '\r' ∉ p := by
      intro p hp
      obtain ⟨t, ht, rfl⟩ := List.mem_map.1 hp
      exact htexts t ht
    rw [bracketed_toList layout level left right hne]
    simp only [List.mem_append, not_or]
    exact ⟨hleft, not_mem_newline layout (level + 1), not_mem_intercalate (by simpa using hsep) hpieces,
      not_mem_newline layout level, hright⟩

include hcomma hcolon in
theorem not_mem_write (hsort : layout.sortKeys = false) {v : Json} (hv : Sound v) (level : Nat) :
    '\r' ∉ (write layout level v).toList := by
  induction hv generalizing level with
  | null => simp [write]
  | bool b => cases b <;> simp [write]
  | int h =>
    rw [write, int_toList]
    exact not_mem_of_atoms (signed_atoms (Numeral.text_atoms _) _)
  | float x => exact not_mem_of_atoms (floatText_atoms x)
  | str s => exact not_mem_quote layout.ascii s
  | arr _ ih =>
    rw [write, writeItems_eq]
    refine not_mem_bracketed hcomma level (by simp) (by simp) fun t ht => ?_
    obtain ⟨v, hv, rfl⟩ := List.mem_map.1 ht
    exact ih v hv (level + 1)
  | obj _ _ ih =>
    rw [write, hsort, if_neg (by decide), writeFields_eq]
    refine not_mem_bracketed hcomma level (by simp) (by simp) fun t ht => ?_
    obtain ⟨f, hf, rfl⟩ := List.mem_map.1 ht
    rw [fieldText, String.toList_append, String.toList_append, List.mem_append, List.mem_append, not_or, not_or]
    exact ⟨⟨not_mem_quote layout.ascii f.1, hcolon⟩, ih f hf (level + 1)⟩

end

end Codemod.Json
