import Codemod.Proofs.Source.Scan.Basic
import Codemod.Proofs.Source.TagBody

/-! Opening tags read by offsets: blanks are skipped, an item is read, and the loop goes on behind it. It
returns what the reader of attributes does. -/
namespace Codemod.Source
open Text

namespace Scan

/-! ## The loops -/

/-- The offset of the first character from `pos` on that is no blank. -/
def skipBlanks (text : List Char) (pos : Nat) : Scan Nat := do
  if pos < text.length then
    let c ← lookUp text[pos]?
    if isBlank c then advance pos (pos + 1) fun _ => skipBlanks text (pos + 1) else return pos
  else return pos
termination_by text.length - pos

/-- The offset after the attribute value at `start`. -/
def valueEnd (text : List Char) (start : Nat) : Scan (Option Nat) := do
  if start < text.length then
    let opener ← lookUp text[start]?
    if isQuote opener then return (find? [opener] (text.drop (start + 1))).map (start + 1 + · + 1)
    else if opener = '{' then return (← closing text start).map (· + 1)
    else return none
  else return none

def attributeLabel? : List Char → Option (List Char)
  | [] => none
  | c :: cs => if isNameStart c then some (c :: cs.takeWhile isAttributeChar) else none

/-- The attribute whose name `label` stands at `start`. -/
def attributeAt (text : List Char) (start : Nat) (label : List Char) : Scan (Option Attribute) := do
  let labelEnd := start + label.length
  let probe ← skipBlanks text labelEnd
  let valued ← if probe < text.length then (· == '=') <$> lookUp text[probe]? else pure false
  if valued then
    let valueStart ← skipBlanks text (probe + 1)
    let stop ← valueEnd text valueStart
    return stop.map fun stop => ⟨label, some (between valueStart stop text), start, stop⟩
  else return some ⟨label, none, start, labelEnd⟩

/-- The opening tag `tag`, when it has been read up to `here` and has the attributes found so far. -/
def tagFrom (text : List Char) (tag : OpeningTag) (here : Nat) : Scan (Option OpeningTag) := do
  let pos ← skipBlanks text here
  if pos < text.length then
    -- the blanks have been passed forwards
    advance here (pos + 1) fun _ => do
      let c ← lookUp text[pos]?
      if c = '>' then return some { tag with stop := pos + 1 }
      else if ['/', '>'].isPrefixOf (text.drop pos) then return some { tag with stop := pos + 2 }
      else if c = '{' then
        match ← closing text pos with
        | none => return none
        | some close => advance pos (close + 1) fun _ => tagFrom text tag (close + 1)
      else
        match attributeLabel? (text.drop pos) with
        | none => return none
        | some label =>
          match ← attributeAt text pos label with
          | none => return none
          | some a =>
            advance pos a.stop fun _ => tagFrom text { tag with attributes := tag.attributes ++ [a] } a.stop
  else return none
termination_by text.length - here

def tagAt (text name : List Char) (start : Nat) : Scan (Option OpeningTag) :=
  let nameEnd := start + 1 + name.length
  tagFrom text ⟨name, start, nameEnd, nameEnd, []⟩ nameEnd

theorem skipBlanks_eq (text : List Char) (pos : Nat) :
    skipBlanks text pos = pure (pos + ((text.drop pos).takeWhile isBlank).length) := by
  induction hn : text.length - pos using Nat.strong_induction_on generalizing pos with
  | _ n ih =>
    cases h : text.drop pos with
    | nil =>
      rw [skipBlanks, read_of_end h]
      rfl
    | cons c rest =>
      have hlen := lt_length_of_drop h
      rw [skipBlanks, read_of_drop h, List.takeWhile_cons]
      by_cases hc : isBlank c = true
      · rw [if_pos hc, if_pos hc, advance_of_lt (by omega), ih _ (by omega) (pos + 1) rfl,
          drop_succ_of_drop h, List.length_cons, Nat.add_assoc, Nat.add_comm 1]
      · rw [if_neg hc, if_neg hc]
        rfl

theorem find?_singleton (c : Char) (cs : List Char) : find? [c] cs = cs.idxOf? c := by
  induction cs with
  | nil => rfl
  | cons d cs ih =>
    rw [find?, List.idxOf?_cons, ih]
    by_cases hd : d = c
    · simp [hd]
    · have hbegins : [c].isPrefixOf (d :: cs) = false := by simp [List.isPrefixOf, Ne.symm hd]
      rw [hbegins, beq_false_of_ne hd]

theorem valueEnd_eq (text : List Char) (start : Nat) :
    valueEnd text start = pure ((valueLength? (text.drop start)).map (start + ·)) := by
  cases h : text.drop start with
  | nil =>
    rw [valueEnd, read_of_end h]
    rfl
  | cons c rest =>
    rw [valueEnd, read_of_drop h, valueLength?]
    by_cases hquote : isQuote c = true
    · rw [if_pos hquote, if_pos hquote, drop_succ_of_drop h, find?_singleton, map_map_add]
      congr 2
      funext n
      omega
    rw [if_neg hquote, if_neg hquote]
    by_cases hbrace : c = '{'
    · subst hbrace
      rw [if_pos rfl, if_pos rfl, closing_of_reads h rfl (readsFrom text _), pure_bind, map_map_add, Option.map_map]
      congr 2
      funext n
      simp only [Function.comp_apply]
      omega
    · rw [if_neg hbrace, if_neg hbrace]
      rfl

/-- An attribute is read behind its name. -/
theorem attributeAt_eq {text rest : List Char} {start : Nat} {c : Char} (h : text.drop start = c :: rest) :
    attributeAt text start (c :: rest.takeWhile isAttributeChar) = pure (readAttribute? start c rest) := by
  have hlabel : text.drop (start + (c :: rest.takeWhile isAttributeChar).length) =
      rest.drop (rest.takeWhile isAttributeChar).length := by
    rw [List.length_cons, ← Nat.add_assoc, Nat.add_right_comm]
    exact drop_add_of_drop h _
  unfold attributeAt readAttribute?
  dsimp only
  rw [skipBlanks_eq, pure_bind, hlabel]
  generalize htail : rest.takeWhile isAttributeChar = tail at hlabel ⊢
  generalize hgap : ((rest.drop tail.length).takeWhile isBlank).length = gap
  have hprobe : text.drop (start + (c :: tail).length + gap) = (rest.drop tail.length).drop gap := by
    rw [← List.drop_drop, hlabel]
  rw [List.length_cons] at hprobe ⊢
  cases hnext : (rest.drop tail.length).drop gap with
  | nil =>
    rw [hnext] at hprobe
    rw [read_of_end hprobe, pure_bind, if_neg Bool.false_ne_true, Nat.add_zero, Nat.add_assoc start, Nat.add_comm 1]
    rfl
  | cons d behind =>
    rw [hnext] at hprobe
    rw [if_pos (lt_length_of_drop hprobe), lookUp_of_drop hprobe, map_pure, pure_bind]
    by_cases hequals : d = '='
    · subst hequals
      rw [if_pos (by simp), skipBlanks_eq, pure_bind, drop_succ_of_drop hprobe, valueEnd_eq, pure_bind]
      change _ = pure ((valueLength? (behind.drop (behind.takeWhile isBlank).length)).map fun n =>
        Attribute.mk (c :: tail) (some ((behind.drop (behind.takeWhile isBlank).length).take n)) start
          (start + 1 + tail.length + (gap + 1 + (behind.takeWhile isBlank).length + n)))
      generalize ((behind.takeWhile isBlank).length) = inner
      have hvalue : text.drop (start + (tail.length + 1) + gap + 1 + inner) = behind.drop inner :=
        drop_add_of_drop hprobe inner
      rw [hvalue, Option.map_map]
      congr 2
      funext n
      rw [Function.comp_apply, between, hvalue, Nat.add_sub_cancel_left]
      simp only [Attribute.mk.injEq, true_and]
      omega
    · rw [if_neg (by simpa using hequals), Nat.add_zero, Nat.add_assoc start, Nat.add_comm 1]
      split
      · next heq => exact absurd (List.cons.inj heq).1 hequals
      · rfl

theorem attributesFrom_blanks {gap : List Char} (hgap : ∀ c ∈ gap, isBlank c = true) (pos : Nat) :
    attributesFrom pos gap = none := by
  have hdrop : gap.drop (gap.takeWhile isBlank).length = [] := by
    rw [List.takeWhile_eq_self_iff.2 hgap, List.drop_length]
  rw [attributesFrom]
  dsimp only
  split
  · rfl
  · next hcons =>
    rw [hdrop] at hcons
    cases hcons

/-- The loop adds the attributes that are left to those found before. -/
theorem tagFrom_eq (text : List Char) (tag : OpeningTag) (here : Nat) :
    tagFrom text tag here = pure ((attributesFrom here (text.drop here)).map fun found =>
      { tag with stop := found.2, attributes := tag.attributes ++ found.1 }) := by
  induction hn : text.length - here using Nat.strong_induction_on generalizing tag here with
  | _ n ih =>
    obtain ⟨gap, behind, hsplit, hgap, hbehind⟩ := exists_span isBlank (text.drop here)
    have hpos : text.drop (here + gap.length) = behind := by rw [← List.drop_drop, hsplit, List.drop_left]
    rw [tagFrom, skipBlanks_eq, pure_bind, hsplit, takeWhile_span hgap hbehind]
    cases behind with
    | nil =>
      rw [read_of_end hpos, List.append_nil, attributesFrom_blanks hgap]
      rfl
    | cons c rest =>
      have hlen := lt_length_of_drop hpos
      have later (tag : OpeningTag) {p : Nat} (hp : here < p) := ih (text.length - p) (by omega) tag p rfl
      rw [if_pos hlen, advance_of_lt (by omega), lookUp_of_drop hpos, pure_bind,
        attributesFrom_cons hgap (hbehind c rfl), hpos, isPrefixOf_pair]
      by_cases hend : c = '>'
      · rw [if_pos hend, if_pos hend]
        simp
      rw [if_neg hend, if_neg hend]
      by_cases hslash : (decide (c = '/') && rest.head? == some '>') = true
      · rw [if_pos hslash, if_pos hslash]
        simp
      rw [if_neg hslash, if_neg hslash]
      by_cases hbrace : c = '{'
      · subst hbrace
        rw [if_pos rfl, if_pos rfl, closing_of_reads hpos rfl (readsFrom text _), pure_bind]
        cases bracketExtent? '{' rest with
        | none => rfl
        | some n =>
          rw [Option.map_some, Option.bind_some]
          dsimp only
          rw [advance_of_lt (by omega), later _ (by omega), ← drop_add_of_drop hpos, Nat.add_right_comm]
      rw [if_neg hbrace, if_neg hbrace, attributeLabel?]
      by_cases hname : isNameStart c = true
      · rw [if_pos hname, if_pos hname]
        dsimp only
        rw [attributeAt_eq hpos, pure_bind]
        cases ha : readAttribute? (here + gap.length) c rest with
        | none => rfl
        | some a =>
          have hstop : here + gap.length < a.stop := by
            obtain ⟨_, _, _, _, _, _, hstop, hlen⟩ := exists_item_of_readAttribute? hgap hname ha
            omega
          have hdrop : rest.drop (a.stop - (here + gap.length + 1)) = text.drop a.stop := by
            rw [← drop_add_of_drop hpos,
              show here + gap.length + 1 + (a.stop - (here + gap.length + 1)) = a.stop by omega]
          rw [Option.bind_some, hdrop, Option.map_map]
          dsimp only
          rw [advance_of_lt (by omega), later _ (by omega)]
          simp only [List.append_assoc, List.singleton_append]
          rfl
      · rw [if_neg hname, if_neg hname]
        rfl

theorem tagAt_eq (text name : List Char) (start : Nat) :
    tagAt text name start = pure (openingTagAt? text name start) := by
  rw [tagAt, openingTagAt?]
  exact tagFrom_eq text _ _

end Scan

/-! ## Ranges of attributes -/

/-- The attributes of a tag follow one another between its name and its end, which lies in the text. -/
structure OpeningTag.InOrder (text : List Char) (tag : OpeningTag) : Prop where
  named : tag.nameEnd = tag.start + 1 + tag.name.length
  inside : ∀ a ∈ tag.attributes, tag.nameEnd ≤ a.start ∧ a.start < a.stop ∧ a.stop < tag.stop
  apart : tag.attributes.Pairwise fun a b => a.stop ≤ b.start
  within : tag.nameEnd < tag.stop ∧ tag.stop ≤ text.length

theorem bounds_of_append {pos : Nat} {gap body name : List Char} {value : Option (List Char)}
    (hbody : body ≠ []) :
    pos < pos + (gap ++ body).length ∧
      ∀ a ∈ some (Attribute.mk name value (pos + gap.length) (pos + (gap ++ body).length)),
        pos ≤ a.start ∧ a.start < a.stop ∧ a.stop = pos + (gap ++ body).length := by
  have hpos : 0 < body.length := List.length_pos_iff.2 hbody
  rw [List.length_append]
  refine ⟨by omega, ?_⟩
  rintro a ⟨⟩
  exact ⟨Nat.le_add_right _ _, Nat.add_lt_add_left (Nat.lt_add_of_pos_right hpos) _, rfl⟩

theorem IsItem.bounds {pos : Nat} {body rest : List Char} {item : TagItem} (h : IsItem pos body rest item) :
    pos < item.stop ∧ ∀ a ∈ item.attr, pos ≤ a.start ∧ a.start < a.stop ∧ a.stop = item.stop := by
  cases h with
  | spread => exact ⟨Nat.lt_add_of_pos_right (List.length_pos_iff.2 (by simp)), nofun⟩
  | flag _ named =>
    obtain ⟨c, tail, rfl, -⟩ := named.exists_cons
    exact bounds_of_append (by simp)
  | quoted => exact bounds_of_append (by simp)
  | braced => exact bounds_of_append (by simp)

theorem TagBody.bounds {pos stop : Nat} {cs : List Char} {items : List TagItem} (h : TagBody pos cs items stop) :
    pos < stop ∧ stop ≤ pos + cs.length ∧
      (∀ a ∈ items.filterMap TagItem.attr, pos ≤ a.start ∧ a.start < a.stop ∧ a.stop < stop) ∧
      (items.filterMap TagItem.attr).Pairwise fun a b => a.stop ≤ b.start := by
  induction h with
  | close _ finishes =>
    refine ⟨?_, ?_, by simp, .nil⟩
    · rcases finishes with rfl | rfl <;> simp
    · simp
  | @item pos stop body rest item items first later ih =>
    obtain ⟨hstop, hlen, hinside, hapart⟩ := ih
    obtain ⟨hitem, hattr⟩ := first.bounds
    have hlength := first.stop_eq
    rw [filterMap_attr_cons]
    refine ⟨by omega, by rw [List.length_append]; omega, fun a ha => ?_, List.pairwise_append.2 ⟨?_, hapart, ?_⟩⟩
    · rcases List.mem_append.1 ha with ha | ha
      · have := hattr a (Option.mem_toList.1 ha)
        omega
      · have := hinside a ha
        omega
    · cases item.attr <;> simp
    · intro a ha b hb
      have := hattr a (Option.mem_toList.1 ha)
      have := hinside b hb
      omega

theorem inOrder_of_openingTagAt? {text name : List Char} {start : Nat} {tag : OpeningTag}
    (h : openingTagAt? text name start = some tag) : tag.InOrder text := by
  obtain ⟨⟨as, stop⟩, hread, rfl⟩ := Option.map_eq_some_iff.1 h
  obtain ⟨items, hbody, rfl⟩ := exists_tagBody hread
  obtain ⟨hstop, hlen, hinside, hapart⟩ := hbody.bounds
  rw [List.length_drop] at hlen
  exact ⟨rfl, hinside, hapart, hstop, by dsimp only; omega⟩

end Codemod.Source
