import Codemod.Proofs.Source.Found
import Codemod.Proofs.Source.Splice

/-! Texts whose line feeds all stand behind a carriage return. Such a text can be cut anywhere except in
front of a line feed, and pieces put together keep the property; an edit keeps it when its own text has
it and no line feed follows the range that it replaces. -/
namespace Codemod.Source

/-- Every line feed stands behind a carriage return, `behind` being the character in front. -/
def CrlfBehind : (behind : Option Char) → List Char → Prop
  | _, [] => True
  | behind, c :: cs => (c = '\n' → behind = some '\r') ∧ CrlfBehind (some c) cs

/-- Every line feed of the text stands behind a carriage return. -/
def Crlf (text : List Char) : Prop := CrlfBehind none text

instance decidableCrlfBehind : (behind : Option Char) → (cs : List Char) → Decidable (CrlfBehind behind cs)
  | _, [] => inferInstanceAs (Decidable True)
  | behind, c :: cs =>
    have := decidableCrlfBehind (some c) cs
    inferInstanceAs (Decidable ((c = '\n' → behind = some '\r') ∧ CrlfBehind (some c) cs))

instance (text : List Char) : Decidable (Crlf text) := decidableCrlfBehind none text

/-- A character that is neither end of a line. -/
def Inline (c : Char) : Prop := c ≠ '\n' ∧ c ≠ '\r'

instance (c : Char) : Decidable (Inline c) := inferInstanceAs (Decidable (c ≠ '\n' ∧ c ≠ '\r'))

theorem crlfBehind_append {behind : Option Char} {cs ds : List Char} :
    CrlfBehind behind (cs ++ ds) ↔ CrlfBehind behind cs ∧ CrlfBehind (lastOr behind cs) ds := by
  induction cs generalizing behind with
  | nil => simp [CrlfBehind]
  | cons c cs ih => simp only [List.cons_append, CrlfBehind, ih, lastOr_cons, and_assoc]

theorem Crlf.behind {cs : List Char} (h : Crlf cs) (behind : Option Char) : CrlfBehind behind cs := by
  cases cs with
  | nil => trivial
  | cons c cs => exact ⟨fun hc => absurd (h.1 hc) (by simp), h.2⟩

theorem CrlfBehind.crlf {behind : Option Char} {cs : List Char} (h : CrlfBehind behind cs)
    (hhead : cs.head? ≠ some '\n') : Crlf cs := by
  cases cs with
  | nil => trivial
  | cons c cs => exact ⟨fun hc => absurd (congrArg some hc) hhead, h.2⟩

/-- Behind a character that is no carriage return a text stands as if it began there. -/
theorem crlfBehind_some_iff {c : Char} (hc : c ≠ '\r') {cs : List Char} :
    CrlfBehind (some c) cs ↔ Crlf cs := by
  refine ⟨fun h => ?_, fun h => h.behind _⟩
  cases cs with
  | nil => trivial
  | cons d cs => exact ⟨fun hd => absurd (Option.some.inj (h.1 hd)) hc, h.2⟩

theorem crlf_of_notMem {cs : List Char} (h : '\n' ∉ cs) : Crlf cs := by
  have hbehind : ∀ behind, CrlfBehind behind cs := by
    induction cs with
    | nil => exact fun _ => trivial
    | cons c cs ih =>
      intro behind
      exact ⟨fun hc => absurd (by simp [hc]) h, ih (fun hm => h (by simp [hm])) _⟩
  exact hbehind none

theorem Crlf.append {cs ds : List Char} (hcs : Crlf cs) (hds : Crlf ds) : Crlf (cs ++ ds) :=
  crlfBehind_append.2 ⟨hcs, hds.behind _⟩

theorem Crlf.of_append_left {cs ds : List Char} (h : Crlf (cs ++ ds)) : Crlf cs :=
  (crlfBehind_append.1 h).1

theorem Crlf.of_append_right {cs ds : List Char} (h : Crlf (cs ++ ds)) (hhead : ds.head? ≠ some '\n') :
    Crlf ds :=
  (crlfBehind_append.1 h).2.crlf hhead

/-- A part of the text that does not begin with a line feed. -/
theorem Crlf.of_infix {text cs : List Char} (h : Crlf text) (hcs : cs <:+: text)
    (hhead : cs.head? ≠ some '\n') : Crlf cs := by
  obtain ⟨front, rest, rfl⟩ := hcs
  exact h.of_append_left.of_append_right hhead

/-- Where a line feed stands behind another character, the text is none of these. -/
theorem not_crlf_append {c : Char} (hc : c ≠ '\r') (cs ds : List Char) :
    ¬ Crlf (cs ++ c :: '\n' :: ds) := by
  intro h
  have hfeed : CrlfBehind (lastOr none cs) (c :: '\n' :: ds) := (crlfBehind_append.1 h).2
  exact hc (Option.some.inj (hfeed.2.1 rfl))

theorem Crlf.getElem? {text : List Char} (h : Crlf text) {i : Nat} (hi : text[i + 1]? = some '\n') :
    text[i]? = some '\r' := by
  obtain ⟨hlt, hfeed⟩ := List.getElem?_eq_some_iff.1 hi
  have hsplit : text = text.take i ++ text[i] :: '\n' :: text.drop (i + 2) := by
    rw [← hfeed, ← List.drop_eq_getElem_cons, ← List.drop_eq_getElem_cons, List.take_append_drop]
  rw [List.getElem?_eq_getElem (by omega)]
  by_contra hc
  rw [hsplit] at h
  exact not_crlf_append (fun heq => hc (congrArg some heq)) _ _ h

theorem Crlf.take {text : List Char} (h : Crlf text) (n : Nat) : Crlf (text.take n) := by
  rw [← List.take_append_drop n text] at h
  exact h.of_append_left

theorem Crlf.drop {text : List Char} (h : Crlf text) {n : Nat} (hn : text[n]? ≠ some '\n') :
    Crlf (text.drop n) := by
  rw [← List.take_append_drop n text] at h
  exact h.of_append_right (by rwa [List.head?_drop])

theorem Crlf.cons {c : Char} (hc : c ≠ '\n') {cs : List Char} (h : Crlf cs) : Crlf (c :: cs) :=
  ⟨fun heq => absurd heq hc, h.behind _⟩

/-- Characters that end no line do not matter, and hold together what stands on their two sides. -/
theorem crlfBehind_append_inline {behind : Option Char} {cs ds : List Char} (hne : cs ≠ [])
    (hcs : ∀ c ∈ cs, Inline c) : CrlfBehind behind (cs ++ ds) ↔ Crlf ds := by
  obtain ⟨init, c, rfl⟩ := (List.eq_nil_or_concat cs).resolve_left hne
  rw [List.concat_eq_append] at hcs ⊢
  have hlast : lastOr behind (init ++ [c]) = some c := by rw [lastOr_append]; rfl
  rw [crlfBehind_append, hlast, crlfBehind_some_iff (hcs c (by simp)).2]
  exact and_iff_right ((crlf_of_notMem fun hm => (hcs _ hm).1 rfl).behind behind)

theorem crlfBehind_append_append {behind : Option Char} {cs : List Char} (hne : cs ≠ [])
    (hcs : ∀ c ∈ cs, Inline c) (front ds : List Char) :
    CrlfBehind behind (front ++ (cs ++ ds)) ↔ CrlfBehind behind front ∧ Crlf ds := by
  rw [crlfBehind_append, crlfBehind_append_inline hne hcs]

/-! ## Edits -/

/-- What an edit replaces in a text. -/
def Edit.Covers (e : Edit) (text covered : List Char) : Prop :=
  ∃ front rest, text = front ++ (covered ++ rest) ∧ e.start = front.length ∧
    e.stop = e.start + covered.length

/-- An edit after which a text is read on at the same kind of place. -/
structure Edit.KeepsCrlf (e : Edit) (text : List Char) : Prop where
  covers : e.start ≤ e.stop
  crlf : Crlf e.text
  next_ne : text[e.stop]? ≠ some '\n'

/-- The text goes on behind what ends with another character than a carriage return. -/
theorem Edit.keepsCrlf_of_last {e : Edit} {text : List Char} {c : Char} (h : Crlf text)
    (hcovers : e.start < e.stop) (hlast : text[e.stop - 1]? = some c) (hc : c ≠ '\r')
    (htext : Crlf e.text) : e.KeepsCrlf text := by
  refine ⟨Nat.le_of_lt hcovers, htext, fun hnext => ?_⟩
  rw [show e.stop = e.stop - 1 + 1 by omega] at hnext
  rw [h.getElem? hnext] at hlast
  exact hc (Option.some.inj hlast).symm

theorem Crlf.head_ne {text : List Char} (h : Crlf text) : text[0]? ≠ some '\n' := by
  cases text with
  | nil => simp
  | cons c text => exact fun hc => absurd (h.1 (by simpa using hc)) (by simp)

theorem drop_drop_stop {text : List Char} {cursor : Nat} {e : Edit} (hcursor : ¬ e.start < cursor)
    (hcovers : e.start ≤ e.stop) : (text.drop cursor).drop (e.stop - cursor) = text.drop e.stop := by
  rw [List.drop_drop, Nat.add_sub_cancel' (Nat.le_trans (Nat.not_lt.1 hcursor) hcovers)]

theorem crlf_spliceFrom {text : List Char} (h : Crlf text) {cursor : Nat} {edits : List Edit}
    (hcursor : text[cursor]? ≠ some '\n') (hedits : ∀ e ∈ edits, e.KeepsCrlf text) :
    Crlf (spliceFrom cursor (text.drop cursor) edits) := by
  induction edits generalizing cursor with
  | nil => exact h.drop hcursor
  | cons e edits ih =>
    obtain ⟨hcovers, htext, hstop⟩ := hedits e (by simp)
    have hlater : ∀ e ∈ edits, e.KeepsCrlf text := fun e he => hedits e (by simp [he])
    rw [spliceFrom]
    split
    · exact ih hcursor hlater
    · next hin =>
      rw [drop_drop_stop hin hcovers]
      exact (((h.drop hcursor).take _).append htext).append (ih hstop hlater)

/-- Replacing ranges keeps the line ends when the new texts have them and no line feed follows a
range. -/
theorem crlf_splice {text : List Char} (h : Crlf text) {edits : List Edit}
    (hedits : ∀ e ∈ edits, e.KeepsCrlf text) : Crlf (splice text edits) :=
  crlf_spliceFrom h h.head_ne fun e he => hedits e ((List.mergeSort_perm edits Edit.before).subset he)

/-- An edit that replaces something by something else and leaves every line end alone. -/
def Edit.WithinLine (e : Edit) (text : List Char) : Prop :=
  ∃ covered, e.Covers text covered ∧ covered ≠ [] ∧ (∀ c ∈ covered, Inline c) ∧ e.text ≠ [] ∧
    ∀ c ∈ e.text, Inline c

theorem crlfBehind_spliceFrom_iff {text : List Char} {cursor : Nat} {behind : Option Char}
    {edits : List Edit} (hedits : ∀ e ∈ edits, e.WithinLine text) :
    CrlfBehind behind (spliceFrom cursor (text.drop cursor) edits) ↔
      CrlfBehind behind (text.drop cursor) := by
  induction edits generalizing cursor behind with
  | nil => exact Iff.rfl
  | cons e edits ih =>
    obtain ⟨covered, ⟨front, rest, htext, hstart, hstop⟩, hne, hcovered, hnew, hinline⟩ :=
      hedits e (by simp)
    have hlater : ∀ e ∈ edits, e.WithinLine text := fun e he => hedits e (by simp [he])
    rw [spliceFrom]
    split
    · exact ih hlater
    · next hin =>
      have hwhole : text.drop e.start = covered ++ rest := by
        rw [htext, List.drop_left' hstart.symm]
      have hrest : text.drop e.stop = rest := by
        rw [hstop, ← List.drop_drop, hwhole, List.drop_left]
      have hold : text.drop cursor =
          (text.drop cursor).take (e.start - cursor) ++ (covered ++ rest) := by
        have hat : (text.drop cursor).drop (e.start - cursor) = covered ++ rest := by
          rw [List.drop_drop, Nat.add_sub_cancel' (Nat.not_lt.1 hin), hwhole]
        rw [← hat, List.take_append_drop]
      conv_rhs => rw [hold]
      rw [drop_drop_stop hin (by omega), List.append_assoc, crlfBehind_append_append hnew hinline,
        crlfBehind_append_append hne hcovered]
      have hnext : Crlf (spliceFrom e.stop (text.drop e.stop) edits) ↔ Crlf (text.drop e.stop) :=
        ih hlater
      rw [hrest] at hnext ⊢
      exact and_congr_right fun _ => hnext

/-- Within lines, replacing ranges changes nothing about the line ends. -/
theorem crlf_splice_iff {text : List Char} {edits : List Edit}
    (hedits : ∀ e ∈ edits, e.WithinLine text) : Crlf (splice text edits) ↔ Crlf text :=
  crlfBehind_spliceFrom_iff fun e he => hedits e ((List.mergeSort_perm edits Edit.before).subset he)

end Codemod.Source
