import Codemod.Proofs.Source.LineEnd.Markup
import Codemod.Source.Splice
import Codemod.Source.Call

/-! Line ends and the edits of calls and of plain text. An argument that is moved begins with no blank,
so it can stand anywhere on a line. -/
namespace Codemod.Source
open Text

/-! ## Arguments -/

theorem cut_argumentPieces (depth : Int) (frames : List Frame) (cs : List Char) :
    Cut cs (argumentPieces depth frames cs) := by
  induction cs generalizing depth frames with
  | nil => exact ⟨List.nil_prefix, by simp⟩
  | cons c cs ih =>
    have hextend (depth : Int) (frames : List Frame) : ∃ first rest,
        argumentPieces depth frames cs = first :: rest ∧ Cut (c :: cs) ((c :: first) :: rest) := by
      have hcut := ih depth frames
      cases hpieces : argumentPieces depth frames cs with
      | nil =>
        rw [hpieces] at hcut
        exact hcut.elim
      | cons first rest =>
        rw [hpieces] at hcut
        exact ⟨first, rest, rfl, hcut.cons c⟩
    rw [argumentPieces]
    dsimp only
    split
    · split
      · split
        · obtain ⟨first, rest, heq, hcut⟩ := hextend (depth + 1) []
          rw [heq]
          exact hcut
        · split
          · obtain ⟨first, rest, heq, hcut⟩ := hextend (depth - 1) []
            rw [heq]
            exact hcut
          · split
            · exact (ih depth []).separated c
            · obtain ⟨first, rest, heq, hcut⟩ := hextend depth []
              rw [heq]
              exact hcut
      · obtain ⟨first, rest, heq, hcut⟩ := hextend depth (quoteFrames c cs)
        rw [heq]
        exact hcut
    · split
      · exact ⟨List.prefix_rfl, by simp⟩
      · next next _ =>
        obtain ⟨first, rest, heq, hcut⟩ := hextend depth next
        rw [heq]
        exact hcut

/-- What is trimmed begins with no line feed. -/
theorem Crlf.trim {text cs : List Char} (h : Crlf text) (hcs : cs <:+: text) : Crlf (trim cs) := by
  refine h.of_infix ((trim_isInfix cs).trans hcs) fun hhead => ?_
  exact absurd (isBlank_head?_trim hhead) (by decide)

theorem crlf_of_mem_splitArguments {inner arg : List Char} (h : Crlf inner)
    (harg : arg ∈ splitArguments inner) : Crlf arg := by
  obtain ⟨piece, hpiece, rfl⟩ := List.mem_map.1 (List.mem_of_mem_filter harg)
  exact h.trim ((cut_argumentPieces 0 [] inner).isInfix hpiece)

theorem crlf_joinWith {sep : List Char} (hsep : Crlf sep) {texts : List (List Char)}
    (h : ∀ cs ∈ texts, Crlf cs) : Crlf (joinWith sep texts) := by
  induction texts with
  | nil => trivial
  | cons cs texts ih =>
    have hfirst := h cs (by simp)
    by_cases hnil : texts = []
    · subst hnil
      rwa [joinWith_singleton]
    · rw [joinWith_cons sep cs hnil]
      exact hfirst.append (hsep.append (ih fun ds hds => h ds (by simp [hds])))

/-! ## Calls -/

/-- A call whose parts can stand anywhere on a line. -/
def Call.KeepsCrlf (call : Call) : Prop := Crlf call.name ∧ ∀ arg ∈ call.arguments, Crlf arg

/-- An edit whose value ends no line. -/
def CallEdit.Inline (e : CallEdit) : Prop := ∀ v ∈ e.value, ∀ c ∈ v.toList, Source.Inline c

theorem CallEdit.Inline.crlf {e : CallEdit} (h : e.Inline) {cs : List Char}
    (hcs : e.value.map String.toList = some cs) : Crlf cs := by
  obtain ⟨v, hv, rfl⟩ := Option.map_eq_some_iff.1 hcs
  exact crlf_of_notMem fun hm => (h v hv _ hm).1 rfl

theorem CallEdit.Inline.keepsCrlf_apply {e : CallEdit} (h : e.Inline) {call : Call}
    (hcall : call.KeepsCrlf) : (e.apply call).KeepsCrlf := by
  obtain ⟨hname, hargs⟩ := hcall
  unfold CallEdit.apply
  dsimp only
  split
  · split
    · next hvalue => exact ⟨h.crlf hvalue, hargs⟩
    · exact ⟨hname, hargs⟩
  · split
    · exact ⟨hname, hargs⟩
    · next v hvalue =>
      refine ⟨hname, fun arg harg => ?_⟩
      simp only [List.mem_append, List.mem_cons] at harg
      rcases harg with harg | rfl | harg
      · exact hargs arg (List.mem_of_mem_take harg)
      · exact h.crlf hvalue
      · exact hargs arg (List.mem_of_mem_drop harg)
  · split
    · exact ⟨hname, fun arg harg => hargs arg (List.mem_of_mem_eraseIdx harg)⟩
    · exact ⟨hname, hargs⟩
  · split
    · next hvalue =>
      refine ⟨hname, fun arg harg => ?_⟩
      obtain ⟨j, hj⟩ := List.mem_iff_getElem?.1 harg
      rw [List.getElem?_modify] at hj
      obtain ⟨old, hold, heq⟩ := Option.map_eq_some_iff.1 hj
      have hcrlf := hargs old (List.mem_of_getElem? hold)
      have hwrapper := h.crlf hvalue
      split at heq
      · rw [← heq]
        exact (hwrapper.append (hcrlf.cons (by decide))).append (by decide)
      · rwa [← heq]
    · exact ⟨hname, hargs⟩

theorem keepsCrlf_foldl {edits : List CallEdit} (h : ∀ e ∈ edits, e.Inline) {call : Call}
    (hcall : call.KeepsCrlf) : (edits.foldl CallEdit.apply call).KeepsCrlf := by
  induction edits generalizing call with
  | nil => exact hcall
  | cons e edits ih =>
    exact ih (fun e he => h e (by simp [he])) ((h e (by simp)).keepsCrlf_apply hcall)

theorem calledName_eq_some {name cs gap : List Char} {behind : Option Char} {n : Nat}
    (h : calledName name behind cs = some (gap, n)) :
    n = name.length + gap.length + 1 ∧ ∃ rest, cs = name ++ (gap ++ '(' :: rest) := by
  unfold calledName at h
  split at h
  · cases h
  · split at h
    · cases h
    · next rest hafter =>
      dsimp only at h
      obtain ⟨hopens, heq⟩ := Option.ite_none_right_eq_some.1 h
      obtain ⟨rfl, rfl⟩ := Prod.mk.inj (Option.some.inj heq)
      obtain ⟨tail, htail⟩ := List.head?_eq_some_iff.1 (beq_iff_eq.1 hopens)
      refine ⟨rfl, tail, ?_⟩
      rw [← htail, drop_length_takeWhile, List.takeWhile_append_dropWhile, after?_eq_some_iff.1 hafter]

variable {text : List Char}

theorem keepsCrlf_of_editCallAt? (h : Crlf text) {callee : List Char} (hne : callee ≠ [])
    (hcallee : ∀ c ∈ callee, Inline c) {edits : List CallEdit} (hedits : ∀ e ∈ edits, e.Inline)
    {f : Found (List Char)} (hf : f ∈ found (calledName callee) text) {e : Edit}
    (he : editCallAt? text callee edits f = some e) : e.KeepsCrlf text := by
  obtain ⟨front, tail, htext, hstart, hread⟩ := (isPlace_of_mem_foundFrom hf).1
  obtain ⟨hlength, rest, rfl⟩ := calledName_eq_some hread
  rw [Nat.zero_add] at hstart
  have hdrop : text.drop f.stop = rest := by
    rw [Found.stop, hstart, hlength, htext]
    have hsplit : front ++ (callee ++ (f.value ++ '(' :: rest)) =
        (front ++ (callee ++ (f.value ++ ['(']))) ++ rest := by simp
    rw [hsplit, List.drop_left' (by simp; omega)]
  rw [htext] at h
  have hbehind : Crlf (f.value ++ '(' :: rest) := ((crlfBehind_append_append hne hcallee _ _).1 h).2
  have hopen : ∀ c ∈ ['('], Inline c := List.forall_mem_singleton.2 (by decide)
  have hrest : Crlf rest := ((crlfBehind_append_append (by simp) hopen _ _).1 hbehind).2
  unfold editCallAt? at he
  split at he
  · cases he
  · dsimp only at he
    rw [hdrop] at he
    split at he
    · cases he
    · next n hextent =>
      split at he
      · cases he
      · obtain rfl := Option.some.inj he
        have hinner : Crlf (rest.take (n - 1)) := hrest.take _
        have hcall : Call.KeepsCrlf ⟨callee, splitArguments (rest.take (n - 1))⟩ :=
          ⟨crlf_of_notMem fun hm => (hcallee _ hm).1 rfl,
            fun arg harg => crlf_of_mem_splitArguments hinner harg⟩
        obtain ⟨hname, hargs⟩ := keepsCrlf_foldl hedits hcall
        obtain ⟨hpos, hle⟩ := bracketExtent?_le hextent
        have hlast : text[f.stop + n - 1]? = some ')' := by
          have hclose := getElem?_of_bracketExtent? (rfl : closer? '(' = some ')') hextent
          rw [← hdrop, List.getElem?_drop] at hclose
          rw [← hclose]
          congr 1
          omega
        refine Edit.keepsCrlf_of_last (htext ▸ h) ?_ hlast (by decide) ?_
        · dsimp only [Found.stop]
          omega
        · have hgap : Crlf f.value := hbehind.of_append_left
          refine ((hname.append hgap).append (Crlf.cons (by decide) ?_)).append (by decide)
          split
          · exact hinner
          · exact crlf_joinWith (by decide) hargs

/-- Calls are rewritten within the line ends they have. -/
theorem crlf_rewriteCall (h : Crlf text) {callee : List Char} (hcallee : ∀ c ∈ callee, Inline c)
    {edits : List CallEdit} (hedits : ∀ e ∈ edits, e.Inline) : Crlf (rewriteCall text callee edits) := by
  unfold rewriteCall
  split
  · exact h
  · next hgiven =>
    have hne : callee ≠ [] := by
      rintro rfl
      simp at hgiven
    refine crlf_splice h fun e he => ?_
    obtain ⟨f, hf, he⟩ := List.mem_filterMap.1 he
    exact keepsCrlf_of_editCallAt? h hne hcallee hedits hf he

/-! ## Text near an anchor -/

theorem drop_eq_of_find? {piece cs : List Char} {i : Nat} (h : find? piece cs = some i) :
    ∃ rest, cs.drop i = piece ++ rest := by
  obtain ⟨rest, hrest⟩ := eq_append_of_find? h
  have hsame : cs.take i ++ cs.drop i = cs.take i ++ (piece ++ rest) := by
    rw [List.take_append_drop, ← hrest]
  exact ⟨rest, List.append_cancel_left hsame⟩

theorem drop_eq_of_findWithin? {piece cs : List Char} {low high i : Nat}
    (h : findWithin? piece cs low high = some i) : ∃ rest, cs.drop i = piece ++ rest := by
  obtain ⟨j, hj, rfl⟩ := Option.map_eq_some_iff.1 h
  obtain ⟨rest, hrest⟩ := drop_eq_of_find? hj
  rw [List.drop_drop, List.drop_take, Nat.add_comm low j] at hrest
  refine ⟨rest ++ (cs.drop (j + low)).drop (high - (j + low)), ?_⟩
  rw [← List.append_assoc, ← hrest, List.take_append_drop]

/-- Wherever a piece is looked for, what is found is the piece. -/
theorem drop_eq_of_anchoredAt? {anchor : Option (List Char)} {piece : List Char} {window : Int}
    {i : Nat} (h : anchoredAt? text anchor piece window = some i) :
    ∃ rest, text.drop i = piece ++ rest := by
  unfold anchoredAt? at h
  dsimp only at h
  rcases Option.or_eq_some_iff.1 (Option.orElse_eq_or ▸ h) with hnear | ⟨-, hfirst⟩
  · obtain ⟨anchor', -, hnear⟩ := Option.bind_eq_some_iff.1 hnear
    obtain ⟨j, -, hnear⟩ := Option.bind_eq_some_iff.1 hnear
    split at hnear
    · exact drop_eq_of_findWithin? hnear
    · exact drop_eq_of_findWithin? hnear
  · exact drop_eq_of_find? hfirst

theorem crlf_editNearAnchor (h : Crlf text) (anchor : Option (List Char)) {before after : List Char}
    (hbefore : ∀ c ∈ before, Inline c) (hafter : ∀ c ∈ after, Inline c) (maxLength window : Int) :
    Crlf (editNearAnchor text anchor before after maxLength window) := by
  unfold editNearAnchor
  split
  · exact h
  · next hgiven =>
    split
    · exact h
    · next i hfound =>
      have hne : before ≠ [] := by
        rintro rfl
        simp at hgiven
      obtain ⟨rest, hrest⟩ := drop_eq_of_anchoredAt? hfound
      have htext : text = text.take i ++ (before ++ rest) := by rw [← hrest, List.take_append_drop]
      have hdrop : text.drop (i + before.length) = rest := by
        rw [← List.drop_drop, hrest, List.drop_left]
      rw [htext] at h
      obtain ⟨hfront, hbehind⟩ := (crlfBehind_append_append hne hbefore _ _).1 h
      rw [hdrop]
      exact (Crlf.append hfront (crlf_of_notMem fun hm => (hafter _ hm).1 rfl)).append hbehind

end Codemod.Source
