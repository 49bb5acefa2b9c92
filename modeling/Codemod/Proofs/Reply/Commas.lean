import Codemod.Proofs.Json.Alike
import Codemod.Reply.Value

/-! Taking out the commas that stand in front of closing brackets. No comma of a JSON text stands there,
so in such a text it is only strings that lose some, and what is left is JSON. -/
namespace Codemod.Reply
open Text

/-! ## What is read in front of a closing bracket -/

theorem isBlank_of_isSpace {c : Char} (h : Json.isSpace c = true) : isBlank c = true := by
  simp only [Json.isSpace, Bool.or_eq_true, beq_iff_eq] at h
  rcases h with ((rfl | rfl) | rfl) | rfl <;> rfl

theorem isBlank_of_visible {c : Char} (h : 33 ≤ c.toNat ∧ c.toNat ≤ 126) : isBlank c = false := by
  unfold isBlank
  dsimp only
  rw [if_pos (by omega)]
  simp
  omega

theorem isBlank_of_isAtomChar {c : Char} (h : Json.isAtomChar c = true) : isBlank c = false := by
  apply isBlank_of_visible
  change ((((c.isAlpha || c.isDigit) || c == '+') || c == '-') || c == '.') = true at h
  simp only [Bool.or_eq_true, beq_iff_eq] at h
  rcases h with (((halpha | hdigit) | rfl) | rfl) | rfl
  · have := toNat_of_isAlpha halpha
    omega
  · have := toNat_of_isDigit hdigit
    omega
  all_goals decide

theorem isBlank_of_sign {c : Char} {t : Json.Token} (h : Json.punctuation? c = some t) :
    isBlank c = false := by
  unfold Json.punctuation? at h
  split at h <;> first | decide | cases h

theorem eq_of_isClosing {c : Char} (h : isClosing c = true) : c = '\x7d' ∨ c = ']' := by
  simpa [isClosing] using h

/-- A closing bracket that only blanks stand in front of is the first token. -/
theorem head?_of_closing {cs : List Char} {ts : List Json.Token} (h : Json.Written cs ts) {c : Char}
    (hc : (cs.dropWhile isBlank).head? = some c) (hclosing : isClosing c = true) :
    ts.head? = some .closeArray ∨ ts.head? = some .closeObject := by
  induction h with
  | nil => cases hc
  | space hspace _ ih =>
    rw [List.dropWhile_cons, if_pos (isBlank_of_isSpace hspace)] at hc
    exact ih hc
  | sign hsign =>
    rw [List.dropWhile_cons, if_neg (by simp [isBlank_of_sign hsign])] at hc
    cases hc
    obtain rfl | rfl := eq_of_isClosing hclosing
    all_goals
      cases hsign
      simp
  | string =>
    cases hc
    exact absurd hclosing (by decide)
  | @atom lex t cs ts hne hlex =>
    obtain ⟨d, lex, rfl⟩ := List.exists_cons_of_ne_nil hne
    have hatom : Json.isAtomChar d = true := hlex d (by simp)
    rw [List.cons_append, List.dropWhile_cons, if_neg (by simp [isBlank_of_isAtomChar hatom])] at hc
    cases hc
    obtain rfl | rfl := eq_of_isClosing hclosing
    all_goals exact absurd hatom (by decide)

/-- The reader takes no closing bracket behind a comma. -/
theorem feed_closing_of_comma {s next : Json.State} (h : s.feed .comma = .ok next) {t : Json.Token}
    (ht : t = .closeArray ∨ t = .closeObject) : next.feed t = .error .malformed := by
  have hkey : s.key .comma = .error .malformed := by
    unfold Json.State.key
    split
    · next hcomma => cases hcomma
    · rfl
  unfold Json.State.feed at h
  split at h
  · cases h
  · cases h
  · rw [hkey] at h
    cases h
  · rw [if_neg (by simp), hkey] at h
    cases h
  · cases h
  · simp only [if_true] at h
    split at h <;> cases h
    · rcases ht with rfl | rfl <;> rfl
    · rcases ht with rfl | rfl <;> simp [Json.State.feed, Json.State.key]

/-! ## Texts without those commas -/

theorem withoutTrailingCommas_cons {c : Char} (hc : c ≠ ',') (cs : List Char) :
    withoutTrailingCommas (c :: cs) = c :: withoutTrailingCommas cs := by
  simp [withoutTrailingCommas, hc]

theorem withoutTrailingCommas_append {front : List Char} (h : ∀ c ∈ front, c ≠ ',') (cs : List Char) :
    withoutTrailingCommas (front ++ cs) = front ++ withoutTrailingCommas cs := by
  induction front with
  | nil => rfl
  | cons c front ih =>
    rw [List.forall_mem_cons] at h
    rw [List.cons_append, withoutTrailingCommas_cons h.1, ih h.2, List.cons_append]

/-- A comma that is read is not taken out. -/
theorem withoutTrailingCommas_comma {cs : List Char} {ts : List Json.Token} (hcs : Json.Written cs ts)
    {s next s' : Json.State} (hfeed : s.feed .comma = .ok next)
    (hrun : ts.foldlM Json.State.feed next = .ok s') :
    withoutTrailingCommas (',' :: cs) = ',' :: withoutTrailingCommas cs := by
  rw [withoutTrailingCommas, if_neg]
  intro hclosing
  obtain ⟨c, hhead, hc⟩ := (Option.any_eq_true ..).1 (Bool.and_eq_true_iff.1 hclosing).2
  have ht := head?_of_closing hcs hhead hc
  cases ts with
  | nil => simp at ht
  | cons t ts =>
    rw [List.head?_cons, Option.some_inj, Option.some_inj] at ht
    obtain ⟨_, hfeed', -⟩ := Json.foldlM_cons_iff.1 hrun
    rw [feed_closing_of_comma hfeed ht] at hfeed'
    cases hfeed'

theorem withoutTrailingCommas_sublist (cs : List Char) : (withoutTrailingCommas cs).Sublist cs := by
  induction cs with
  | nil => exact .refl _
  | cons c cs ih =>
    unfold withoutTrailingCommas
    split
    · exact ih.cons c
    · exact ih.cons_cons c

/-- A comma with nothing but blanks between it and a closing bracket. -/
def HasTrailingComma (cs : List Char) : Prop :=
  ∃ front gap c back, cs = front ++ ',' :: (gap ++ c :: back) ∧ (∀ b ∈ gap, isBlank b = true) ∧
    isClosing c = true

theorem isBlank_of_closing {c : Char} (hc : isClosing c = true) : isBlank c = false := by
  obtain rfl | rfl := eq_of_isClosing hc
  all_goals decide

theorem closing_ahead_iff {cs : List Char} :
    (cs.dropWhile isBlank).head?.any isClosing = true ↔
      ∃ gap c back, cs = gap ++ c :: back ∧ (∀ b ∈ gap, isBlank b = true) ∧ isClosing c = true := by
  constructor
  · intro h
    obtain ⟨c, hhead, hc⟩ := (Option.any_eq_true ..).1 h
    obtain ⟨back, hback⟩ := List.head?_eq_some_iff.1 hhead
    refine ⟨cs.takeWhile isBlank, c, back, ?_, fun b hb => List.mem_takeWhile_imp hb, hc⟩
    rw [← hback, List.takeWhile_append_dropWhile]
  · rintro ⟨gap, c, back, rfl, hgap, hc⟩
    have hdrop : (gap ++ c :: back).dropWhile isBlank = c :: back :=
      dropWhile_span hgap (by simpa using isBlank_of_closing hc)
    rw [hdrop]
    simpa using hc

theorem hasTrailingComma_cons {c : Char} {cs : List Char} :
    HasTrailingComma (c :: cs) ↔
      (c == ',' && (cs.dropWhile isBlank).head?.any isClosing) = true ∨ HasTrailingComma cs := by
  rw [Bool.and_eq_true, beq_iff_eq, closing_ahead_iff]
  constructor
  · rintro ⟨front, gap, d, back, h, hgap, hd⟩
    cases front with
    | nil =>
      obtain ⟨rfl, rfl⟩ := List.cons.inj h
      exact .inl ⟨rfl, gap, d, back, rfl, hgap, hd⟩
    | cons _ front =>
      obtain ⟨-, rfl⟩ := List.cons.inj h
      exact .inr ⟨front, gap, d, back, rfl, hgap, hd⟩
  · rintro (⟨rfl, gap, d, back, rfl, hgap, hd⟩ | ⟨front, gap, d, back, rfl, hgap, hd⟩)
    · exact ⟨[], gap, d, back, rfl, hgap, hd⟩
    · exact ⟨c :: front, gap, d, back, rfl, hgap, hd⟩

theorem withoutTrailingCommas_eq_self_iff {cs : List Char} :
    withoutTrailingCommas cs = cs ↔ ¬ HasTrailingComma cs := by
  induction cs with
  | nil => simp [withoutTrailingCommas, HasTrailingComma]
  | cons c cs ih =>
    rw [hasTrailingComma_cons, not_or, withoutTrailingCommas]
    split
    · next hcomma =>
      have hshort := (withoutTrailingCommas_sublist cs).length_le
      refine iff_of_false (fun heq => ?_) fun h => h.1 hcomma
      rw [heq] at hshort
      exact absurd hshort (Nat.not_succ_le_self cs.length)
    · next hcomma => simp [hcomma, ih]

/-- A string stays a string. -/
theorem exists_quotable {raw : List Char} (h : Json.Quotable raw) (cs : List Char) :
    ∃ raw', Json.Quotable raw' ∧
      withoutTrailingCommas (raw ++ '"' :: cs) = raw' ++ '"' :: withoutTrailingCommas cs := by
  induction h with
  | nil => exact ⟨[], .nil, withoutTrailingCommas_cons (by decide) cs⟩
  | @plain c raw hquote hslash hc _ ih =>
    obtain ⟨raw', hraw', hcut⟩ := ih
    rw [List.cons_append, withoutTrailingCommas, hcut]
    split
    · exact ⟨raw', hraw', rfl⟩
    · exact ⟨c :: raw', .plain hquote hslash hc hraw', rfl⟩
  | @escape e raw he _ ih =>
    obtain ⟨raw', hraw', hcut⟩ := ih
    have hcomma : e ≠ ',' := by
      rintro rfl
      cases he
    refine ⟨'\\' :: e :: raw', .escape he hraw', ?_⟩
    rw [List.cons_append, List.cons_append, withoutTrailingCommas_cons (by decide),
      withoutTrailingCommas_cons hcomma, hcut]
    rfl
  | @unit hex raw hlength hhex _ ih =>
    obtain ⟨raw', hraw', hcut⟩ := ih
    have hcomma : ∀ c ∈ hex, c ≠ ',' := fun c hc =>
      Json.ne_of_hexDigit (Json.hexDigits_of_hexValue hhex c hc) rfl
    refine ⟨'\\' :: 'u' :: (hex ++ raw'), .unit hlength hhex hraw', ?_⟩
    rw [List.cons_append, List.cons_append, List.append_assoc, withoutTrailingCommas_cons (by decide),
      withoutTrailingCommas_cons (by decide), withoutTrailingCommas_append hcomma, hcut]
    simp

/-- Outside strings no comma is taken out. -/
theorem alike_withoutTrailingCommas {cs : List Char} {ts : List Json.Token} (h : Json.Written cs ts)
    {s s' : Json.State} (hrun : ts.foldlM Json.State.feed s = .ok s') :
    Json.Alike cs (withoutTrailingCommas cs) := by
  have hkept {lex cs : List Char} (hlex : ∀ c ∈ lex, c ≠ ',' ∧ c ≠ '"')
      (h : Json.Alike cs (withoutTrailingCommas cs)) :
      Json.Alike (lex ++ cs) (withoutTrailingCommas (lex ++ cs)) := by
    rw [withoutTrailingCommas_append fun c hc => (hlex c hc).1]
    exact h.behind fun hmem => (hlex _ hmem).2 rfl
  induction h generalizing s with
  | nil => exact .plain List.not_mem_nil
  | @space c cs ts hc _ ih =>
    have hlex : c ≠ ',' ∧ c ≠ '"' := by
      constructor <;>
      · rintro rfl
        cases hc
    exact hkept (List.forall_mem_singleton.2 hlex) (ih hrun)
  | @sign c t cs ts hc hcs ih =>
    obtain ⟨next, hfeed, hnext⟩ := Json.foldlM_cons_iff.1 hrun
    have hquote : '"' ∉ [c] := by
      rw [List.mem_singleton]
      rintro rfl
      cases hc
    have hsame : withoutTrailingCommas (c :: cs) = c :: withoutTrailingCommas cs := by
      by_cases hcomma : c = ','
      · subst hcomma
        cases hc
        exact withoutTrailingCommas_comma hcs hfeed hnext
      · exact withoutTrailingCommas_cons hcomma cs
    rw [hsame]
    exact (ih hnext).behind hquote
  | @string raw text cs ts hraw _ ih =>
    obtain ⟨next, -, hrun⟩ := Json.foldlM_cons_iff.1 hrun
    obtain ⟨raw', hraw', hcut⟩ := exists_quotable hraw cs
    rw [withoutTrailingCommas_cons (by decide), hcut]
    exact .string List.not_mem_nil hraw hraw' (ih hrun)
  | @atom lex t cs ts _ hlex _ _ ih =>
    obtain ⟨next, -, hrun⟩ := Json.foldlM_cons_iff.1 hrun
    refine hkept (fun c hc => ⟨?_, ?_⟩) (ih hrun)
    · rintro rfl
      exact absurd (hlex _ hc) (by decide)
    · rintro rfl
      exact absurd (hlex _ hc) (by decide)

end Codemod.Reply
