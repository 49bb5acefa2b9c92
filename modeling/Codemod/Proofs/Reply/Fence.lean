import Codemod.Proofs.Json.Written
import Codemod.Reply.Value

/-! Fences in answers. In a JSON text none is found: a fence begins with a line that has no quote, and in
such a text a quote stands behind every backtick of a line. A fence around a text ends where backticks
stand first. -/
namespace Codemod.Reply
open Text

/-! ## Texts without a fence -/

/-- Whether every backtick has a quote behind it on its line. -/
def Sheltered (cs : List Char) : Prop :=
  ∀ front back, cs = front ++ '`' :: back → ∃ inner after, back = inner ++ '"' :: after ∧ '\n' ∉ inner

theorem foreign_backtick : Json.Foreign '`' := ⟨rfl, rfl, by decide, rfl⟩

theorem sheltered_of_read {cs : List Char} {v : Json} (h : Json.read cs = .ok v) : Sheltered cs := by
  intro front back he
  obtain ⟨inner, after, hback, hinner⟩ := (Json.written_of_read h).quote_behind foreign_backtick he
  exact ⟨inner, after, hback, fun hn => absurd (hinner _ hn) (by decide)⟩

theorem Sheltered.behind {cs front : List Char} (h : Sheltered cs) (hfront : '`' ∉ front) :
    Sheltered (front ++ cs) := by
  intro left right he
  rcases List.append_eq_append_iff.1 he with ⟨gap, -, he⟩ | ⟨gap, hsplit, he⟩
  · exact h gap right he
  · cases gap with
    | nil => exact h [] right he.symm
    | cons c gap =>
      rw [hsplit, (List.cons.inj he).1] at hfront
      simp at hfront

theorem Sheltered.before {cs back : List Char} (h : Sheltered cs) (hback : '`' ∉ back) :
    Sheltered (cs ++ back) := by
  intro left right he
  rcases List.append_eq_append_iff.1 he with ⟨gap, -, he⟩ | ⟨gap, hsplit, he⟩
  · rw [he] at hback
    simp at hback
  · cases gap with
    | nil =>
      rw [List.nil_append] at he
      rw [← he] at hback
      simp at hback
    | cons c gap =>
      obtain ⟨rfl, rfl⟩ := List.cons.inj he
      obtain ⟨inner, after, rfl, hinner⟩ := h left gap hsplit
      exact ⟨inner, after ++ back, by simp, hinner⟩

theorem exists_of_first? {read : List Char → Option α} {cs : List Char} {a : α}
    (h : first? read cs = some a) : ∃ front rest, cs = front ++ rest ∧ read rest = some a := by
  induction cs with
  | nil => exact ⟨[], [], rfl, h⟩
  | cons c cs ih =>
    rcases Option.or_eq_some_iff.1 h with h | ⟨-, h⟩
    · exact ⟨[], c :: cs, rfl, h⟩
    · obtain ⟨front, rest, rfl, hread⟩ := ih h
      exact ⟨c :: front, rest, rfl, hread⟩

theorem eq_of_blank_line {cs body : List Char}
    (h : (match cs.dropWhile fun c => c == ' ' || c == '\t' with
      | '\n' :: body => some body
      | _ => none) = some body) : ∃ blanks, cs = blanks ++ '\n' :: body ∧ '"' ∉ blanks := by
  split at h
  · next hbody =>
    cases h
    refine ⟨cs.takeWhile fun c => c == ' ' || c == '\t', ?_, fun hmem =>
      absurd (List.mem_takeWhile_imp hmem) (by decide)⟩
    rw [← hbody, List.takeWhile_append_dropWhile]
  · cases h

/-- The opening line of a fence: backticks, and no quote up to the end of the line. -/
theorem eq_of_fenceOpening? {cs body : List Char} (h : fenceOpening? cs = some body) :
    ∃ line, cs = '`' :: (line ++ '\n' :: body) ∧ '"' ∉ line := by
  obtain ⟨rest, hrest, h⟩ := Option.bind_eq_some_iff.1 h
  rw [after?_eq_some_iff] at hrest
  have hline : ∃ line, rest = line ++ '\n' :: body ∧ '"' ∉ line := by
    by_cases hjson : ((rest.take 4).map fun c => if c == 'ſ' then 's' else c.toLower) = "json".toList
    · simp only [hjson, beq_self_eq_true, if_true] at h
      obtain ⟨blanks, hblanks, hquote⟩ := eq_of_blank_line h
      refine ⟨rest.take 4 ++ blanks, ?_, ?_⟩
      · rw [List.append_assoc, ← hblanks, List.take_append_drop]
      · rw [List.mem_append, not_or]
        refine ⟨fun hmem => ?_, hquote⟩
        have hmap := List.mem_map_of_mem (f := fun c => if c == 'ſ' then 's' else c.toLower) hmem
        rw [hjson] at hmap
        exact absurd hmap (by decide)
    · simp only [beq_eq_false_iff_ne.2 hjson] at h
      exact eq_of_blank_line h
  obtain ⟨line, hline, hquote⟩ := hline
  exact ⟨'`' :: '`' :: line, by rw [hrest, hline]; rfl, by simp [hquote]⟩

theorem Sheltered.fenced?_eq_none {cs : List Char} (h : Sheltered cs) : fenced? cs = none := by
  unfold fenced?
  rw [Option.map_eq_none_iff, Option.eq_none_iff_forall_ne_some]
  intro part hpart
  obtain ⟨front, rest, rfl, hread⟩ := exists_of_first? hpart
  obtain ⟨body, hbody, -⟩ := Option.bind_eq_some_iff.1 hread
  obtain ⟨line, rfl, hline⟩ := eq_of_fenceOpening? hbody
  obtain ⟨inner, after, he, hinner⟩ := h front _ rfl
  rcases List.append_eq_append_iff.1 he with ⟨gap, hsplit, he⟩ | ⟨gap, hsplit, he⟩
  · cases gap with
    | nil => simp at he
    | cons c gap =>
      rw [hsplit, ← (List.cons.inj he).1] at hinner
      simp at hinner
  · cases gap with
    | nil => simp at he
    | cons c gap =>
      rw [hsplit, ← (List.cons.inj he).1] at hline
      simp at hline

/-! ## Texts in a fence -/

/-- A text in a fence. -/
def inFence (cs : List Char) : List Char := "```json\n".toList ++ (cs ++ "\n```".toList)

theorem inFence_eq (cs : List Char) : inFence cs = '`' :: ("``json\n".toList ++ (cs ++ "\n```".toList)) :=
  rfl

theorem isPrefixOf_fence_iff {cs : List Char} :
    fence.isPrefixOf (cs ++ "\n```".toList) = true ↔ fence <+: cs := by
  rw [List.isPrefixOf_iff_prefix]
  match cs with
  | [] | [_] | [_, _] => simp [fence]
  | c :: d :: e :: cs => simp [fence]

theorem find?_fence {cs : List Char} (h : ¬ fence <:+: cs) :
    find? fence (cs ++ "\n```".toList) = some (cs.length + 1) := by
  induction cs with
  | nil => decide
  | cons c cs ih =>
    have hprefix : fence.isPrefixOf (c :: cs ++ "\n```".toList) = false := by
      rw [Bool.eq_false_iff, ne_eq, isPrefixOf_fence_iff]
      exact fun hp => h hp.isInfix
    have htail : ¬ fence <:+: cs := fun hcs => h (hcs.trans (List.suffix_cons c cs).isInfix)
    rw [List.cons_append] at hprefix ⊢
    rw [find?, hprefix, ih htail]
    rfl

theorem find?_fence_of_infix {cs : List Char} (h : fence <:+: cs) :
    ∃ front rest, cs = front ++ (fence ++ rest) ∧
      find? fence (cs ++ "\n```".toList) = some front.length := by
  induction cs with
  | nil => simp [fence] at h
  | cons c cs ih =>
    cases hprefix : fence.isPrefixOf (c :: cs ++ "\n```".toList) with
    | true =>
      obtain ⟨rest, hrest⟩ := isPrefixOf_fence_iff.1 hprefix
      refine ⟨[], rest, hrest.symm, ?_⟩
      rw [List.cons_append] at hprefix ⊢
      rw [find?, hprefix]
      rfl
    | false =>
      have htail : fence <:+: cs := by
        rcases List.infix_cons_iff.1 h with hp | htail
        · rw [isPrefixOf_fence_iff.2 hp] at hprefix
          cases hprefix
        · exact htail
      obtain ⟨front, rest, hcs, hfind⟩ := ih htail
      refine ⟨c :: front, rest, by rw [hcs]; rfl, ?_⟩
      rw [List.cons_append] at hprefix ⊢
      rw [find?, hprefix, hfind]
      rfl

/-- A text in a fence is found up to the first backticks that could end the fence. -/
theorem fenced?_of_splitAt? {cs body rest : List Char}
    (h : splitAt? fence (cs ++ "\n```".toList) = some (body, rest)) :
    fenced? (inFence cs) = some (trim body) := by
  have hopening : fenceOpening? (inFence cs) = some (cs ++ "\n```".toList) := by
    rfl
  rw [fenced?, inFence_eq, first?, ← inFence_eq, hopening, Option.bind_some, h]
  rfl

theorem fenced?_inFence {cs : List Char} (h : ¬ fence <:+: cs) (hcs : trim cs ≠ []) :
    fenced? (inFence cs) = some (trim cs) := by
  have hcut : cs ++ "\n```".toList = (cs ++ ['\n']) ++ fence := by
    rw [List.append_assoc]
    rfl
  have hsplit : splitAt? fence (cs ++ "\n```".toList) =
      some (cs ++ ['\n'], (cs ++ "\n```".toList).drop (cs.length + 1 + fence.length)) := by
    obtain ⟨htake, -⟩ := take_and_drop_of_append hcut (n := cs.length + 1) (by simp)
    rw [splitAt?, find?_fence h, Option.map_some, htake]
  rw [fenced?_of_splitAt? hsplit, trim_append_blanks hcs (List.all_eq_true.1 rfl)]

theorem fenced?_inFence_of_infix {cs : List Char} (h : fence <:+: cs) :
    ∃ front rest, cs = front ++ (fence ++ rest) ∧ fenced? (inFence cs) = some (trim front) := by
  obtain ⟨front, rest, hcs, hfind⟩ := find?_fence_of_infix h
  refine ⟨front, rest, hcs, ?_⟩
  obtain ⟨htake, -⟩ := take_and_drop_of_append
    (show cs ++ "\n```".toList = front ++ (fence ++ rest ++ "\n```".toList) by rw [hcs]; simp) rfl
  exact fenced?_of_splitAt? (by rw [splitAt?, hfind, Option.map_some, htake])

end Codemod.Reply
