import Codemod.Proofs.Source.Revised

/-! Edits of pieces that stand in code and leave no trace there. Such an edit can still change what is code
and what is literal: a quote that closes nothing on its line is plain text, and an edit that takes a line end
away, or the end of a literal that was plain to an earlier quote, may let it close. This happens exactly when
the text behind one of the edits is a literal afterwards. -/
namespace Codemod.Source
open Text

/-! ## Literals in quotes -/

/-- Up to where a literal does not close it stays open. -/
theorem framesAfter_quoted_open {quote : Char} {kept more : List Char} (h : closesOnLine quote kept = false)
    (hmore : closesOnLine quote (kept ++ more) = true) (outer : List Frame) :
    ∃ inner, framesAfter (.quoted quote :: outer) kept more = some (inner ++ .quoted quote :: outer) := by
  induction kept using closesOnLine.induct with
  | case1 => exact ⟨[], rfl⟩
  | case2 d kept ih => exact ih h hmore
  | case3 c kept hno ih =>
    by_cases hslash : c = '\\'
    · subst hslash
      cases kept with
      | nil => exact ⟨[.second], rfl⟩
      | cons d kept => exact absurd rfl (hno d kept rfl)
    · rw [List.cons_append, closesOnLine_cons hslash] at hmore
      rw [closesOnLine_cons hslash] at h
      obtain ⟨hc, hline⟩ := Bool.or_eq_false_iff.1 h
      rw [hc, Bool.false_or] at hmore
      obtain ⟨hfeed, hmore⟩ := Bool.and_eq_true_iff.1 hmore
      rw [hfeed, Bool.true_and] at hline
      have hstep : step (.quoted quote :: outer) c (kept ++ more) = some (.quoted quote :: outer) := by
        have hne : c ≠ quote := by simpa using hc
        simp [step, hslash, hne]
      obtain ⟨inner, hinner⟩ := ih hline hmore
      exact ⟨inner, by rw [framesAfter, hstep, Option.bind_some, hinner]⟩

/-- Calm characters behind it do not close a literal. -/
theorem closesOnLine_append_calm {quote : Char} (hquote : isQuote quote = true) {kept texts : List Char}
    (h : closesOnLine quote kept = false) (htexts : ∀ c ∈ texts, Calm quote c) :
    closesOnLine quote (kept ++ texts) = false := by
  have hcalm (cs : List Char) (hcs : ∀ c ∈ cs, Calm quote c) : closesOnLine quote cs = false := by
    rw [← List.append_nil cs, closesOnLine_append hcs]
    rfl
  induction kept using closesOnLine.induct with
  | case1 => exact hcalm texts htexts
  | case2 d kept ih => exact ih h
  | case3 c kept hno ih =>
    by_cases hslash : c = '\\'
    · subst hslash
      cases kept with
      | nil =>
        rw [List.cons_append, closesOnLine_backslash hquote]
        exact hcalm _ fun c hc => htexts c (List.mem_of_mem_drop hc)
      | cons d kept => exact absurd rfl (hno d kept rfl)
    · rw [closesOnLine_cons hslash] at h
      obtain ⟨hc, hline⟩ := Bool.or_eq_false_iff.1 h
      rw [List.cons_append, closesOnLine_cons hslash, hc, Bool.false_or]
      cases hfeed : c != '\n' with
      | false => rfl
      | true =>
        rw [hfeed, Bool.true_and] at hline
        rw [Bool.true_and, ih hline]

/-- A piece of a line can be put in front of what closes. -/
theorem closesOnLine_append_line {quote : Char} {piece cs : List Char} (hfeed : '\n' ∉ piece)
    (hlast : piece.getLast? ≠ some '\\') (h : closesOnLine quote cs = true) :
    closesOnLine quote (piece ++ cs) = true := by
  induction piece using closesOnLine.induct with
  | case1 => exact h
  | case2 d piece ih =>
    refine ih (fun hm => hfeed (by simp [hm])) fun hslash => hlast ?_
    rw [List.getLast?_cons, List.getLast?_cons, hslash]
    rfl
  | case3 c piece hno ih =>
    have hc : c ≠ '\\' := by
      rintro rfl
      cases piece with
      | nil => exact hlast rfl
      | cons d piece => exact hno d piece rfl rfl
    have hline : c ≠ '\n' := fun hc => hfeed (by simp [hc])
    have hrest : closesOnLine quote (piece ++ cs) = true := by
      refine ih (fun hm => hfeed (by simp [hm])) fun hslash => hlast ?_
      rw [List.getLast?_cons, hslash]
      rfl
    rw [List.cons_append, closesOnLine_cons hc, hrest]
    simp [hline]

theorem getElem?_marks_of_framesAfter {front rest : List Char} {frames : List Frame}
    (h : framesAfter [] front rest = some frames) :
    (marks (front ++ rest))[front.length]? = (marksFrom frames rest)[0]? := by
  rw [getElem?_marks_append, h]

/-- What stands behind open frames is covered, the line feed behind a line comment apart. -/
theorem covered_of_framesAfter {front rest : List Char} {c : Char} {frames : List Frame}
    (h : framesAfter [] front (c :: rest) = some frames) (hframes : frames ≠ [])
    (hline : frames ≠ [.lineComment]) : Covered (front ++ c :: rest) front.length := by
  have hmark : (marks (front ++ c :: rest))[front.length]? = some .inside := by
    rw [getElem?_marks_of_framesAfter h, marksFrom]
    cases step frames c rest with
    | none => rfl
    | some next =>
      refine congrArg some ?_
      unfold markOf
      split
      · exact absurd rfl hframes
      · exact absurd rfl hline
      · rfl
  exact covered_iff.2 ⟨_, hmark, by simp⟩

/-- What opens nothing behind code is code. -/
theorem not_covered_of_framesAfter {front rest : List Char} {c : Char}
    (h : framesAfter [] front (c :: rest) = some []) (hopens : inertFrames c rest = []) :
    ¬ Covered (front ++ c :: rest) front.length := by
  rw [not_covered_iff (by simp), getElem?_marks_of_framesAfter h, marksFrom, step, hopens]
  rfl

/-! ## Edits in code -/

/-- The edit stands in code, and neither what it covers nor its text leaves a trace there. Its text can be
part of any literal, and behind it the text goes on with code. -/
structure CodeEdit (front covered behind : List Char) (e : Edit) : Prop where
  code : framesAfter [] front (covered ++ behind) = some []
  ends : ∀ c ∈ front.getLast?, c ∉ ['/', '*', '`', '\\']
  ne_nil : covered ≠ []
  neutral : Neutral covered behind
  last : covered.getLast? ≠ some '\\'
  written : ∀ rest, Neutral e.text rest
  calm : ∀ quote, isQuote quote = true → ∀ c ∈ e.text, Calm quote c
  opens : ∃ c rest, behind = c :: rest ∧ inertFrames c rest = []

variable {front edits cs cs'}

theorem Revised.starts (h : Revised CodeEdit front edits cs cs') :
    ∀ e ∈ edits, front.length ≤ e.start ∧ e.start < e.stop :=
  h.starts_of_covers fun hfits => hfits.ne_nil

/-- Either no edit begins at once, or the new text begins with the texts of edits one behind the other. -/
theorem Revised.chain (h : Revised CodeEdit front edits cs cs') :
    (∀ e ∈ edits, front.length < e.start) ∨ ∃ e ∈ edits, ∃ texts rest, Untouched edits e.stop ∧
      cs' = texts ++ rest ∧ (∀ quote, isQuote quote = true → ∀ c ∈ texts, Calm quote c) ∧
      movedFrom front.length 0 edits e.stop = texts.length := by
  induction h with
  | nil => exact .inl (by simp)
  | keep later =>
    refine .inl fun e he => ?_
    have := (later.starts e he).1
    rw [List.length_append, List.length_singleton] at this
    omega
  | @edit front edits e covered cs cs' hstart hstop hfits later ih =>
    right
    have hlen := List.length_pos_of_ne_nil hfits.ne_nil
    have hlater := later.starts
    have hmoved {i : Nat} (hi : e.stop ≤ i) : movedFrom front.length 0 (e :: edits) i =
        e.text.length + movedFrom e.stop 0 edits i := by
      rw [movedFrom, if_neg (by omega), ← movedFrom_add]
      congr 1
      omega
    rw [List.length_append, ← hstart, ← hstop] at ih hlater
    rcases ih with hfar | ⟨d, hd, texts, rest, huntouched, rfl, hcalm, hd'⟩
    · refine ⟨e, by simp, e.text, cs', ?_, rfl, hfits.calm, ?_⟩
      · intro d hd hcover
        rcases List.mem_cons.1 hd with rfl | hd
        · omega
        · have := hfar d hd
          omega
      · rw [hmoved (Nat.le_refl _), movedFrom_self hlater, Nat.add_zero]
    · have := hlater d hd
      refine ⟨d, by simp [hd], e.text ++ texts, rest, ?_, by simp, fun quote hquote c hc => ?_, ?_⟩
      · intro b hb hcover
        rcases List.mem_cons.1 hb with rfl | hb
        · omega
        · exact huntouched b hb hcover
      · exact (List.mem_append.1 hc).elim (hfits.calm quote hquote c) (hcalm quote hquote c)
      · rw [hmoved (by omega), hd', List.length_append]

/-- Where the first edits have been carried out, the new text goes on behind what both texts begin with and the
texts of the edits. -/
theorem Revised.exists_join (h : Revised CodeEdit front edits cs cs') (hedits : edits ≠ []) :
    ∃ e ∈ edits, ∃ kept more texts rest, Untouched edits e.stop ∧ cs = kept ++ more ∧
      cs' = kept ++ (texts ++ rest) ∧ (∀ quote, isQuote quote = true → ∀ c ∈ texts, Calm quote c) ∧
      movedFrom front.length 0 edits e.stop = (kept ++ texts).length := by
  induction h with
  | nil => exact absurd rfl hedits
  | @keep front edits c cs cs' later ih =>
    obtain ⟨e, he, kept, more, texts, rest, huntouched, rfl, rfl, hcalm, hmoved⟩ := ih hedits
    have hlater := later.starts
    rw [List.length_append, List.length_singleton] at hmoved hlater
    refine ⟨e, he, c :: kept, more, texts, rest, huntouched, rfl, rfl, hcalm, ?_⟩
    rw [movedFrom_succ hlater (by have := hlater e he; omega), hmoved]
    rfl
  | @edit front edits e covered cs cs' hstart hstop hfits later ih =>
    rcases (Revised.edit hstart hstop hfits later).chain with hfar | ⟨d, hd, texts, rest, huntouched,
      hcs', hcalm, hmoved⟩
    · have := hfar e (by simp)
      omega
    · exact ⟨d, hd, [], covered ++ cs, texts, rest, huntouched, rfl, hcs', hcalm, hmoved⟩

/-! ## Literals of both texts -/

variable {quote : Char} {outer : List Frame}

/-- A literal that closes in the old text holds no edit, so it closes in the new one. -/
theorem Revised.closesOnLine_new {P : EditProperty} (hcode : ∀ {front covered behind e}, P front covered behind e →
      framesAfter [] front (covered ++ behind) = some []) (h : Revised P front edits cs cs')
    (hquote : isQuote quote = true) (hopen : framesAfter [] front cs = some (.quoted quote :: outer))
    (hcloses : closesOnLine quote cs = true) : closesOnLine quote cs' = true := by
  obtain ⟨-, rfl⟩ | ⟨e, later, kept, covered, rest, rest', -, rfl, rfl, hfits, -⟩ := h.exists_first
  · exact hcloses
  · cases hkept : closesOnLine quote kept with
    | true => exact closesOnLine_append_of_closes hquote hkept _
    | false =>
      obtain ⟨inner, hinner⟩ := framesAfter_quoted_open hkept hcloses outer
      have hnone := hcode hfits
      rw [framesAfter_append, hopen, Option.bind_some, hinner] at hnone
      simp at hnone

/-- A literal that closes in the new text only holds the end of an edit. -/
theorem Revised.exists_covered (h : Revised CodeEdit front edits cs cs') (hquote : isQuote quote = true)
    {front' : List Char} (hopen : framesAfter [] front' cs' = some (.quoted quote :: outer))
    (hcloses : closesOnLine quote cs' = true) (hplain : closesOnLine quote cs = false) :
    ∃ e ∈ edits, Untouched edits e.stop ∧
      Covered (front' ++ cs') (front'.length + movedFrom front.length 0 edits e.stop) := by
  have hedits : edits ≠ [] := by
    rintro rfl
    obtain ⟨-, rfl⟩ | ⟨e, later, -, -, -, -, heq, -⟩ := h.exists_first
    · rw [hplain] at hcloses
      cases hcloses
    · cases heq
  obtain ⟨e, he, kept, more, texts, rest, huntouched, rfl, rfl, hcalm, hmoved⟩ := h.exists_join hedits
  have hkept : closesOnLine quote kept = false := by
    by_contra hkept
    rw [closesOnLine_append_of_closes hquote (by simpa using hkept)] at hplain
    cases hplain
  have htexts : closesOnLine quote (kept ++ texts) = false :=
    closesOnLine_append_calm hquote hkept (hcalm quote hquote)
  rw [← List.append_assoc kept] at hopen hcloses ⊢
  obtain ⟨inner, hinner⟩ := framesAfter_quoted_open htexts hcloses outer
  obtain ⟨c, rest, rfl⟩ : ∃ c cs, rest = c :: cs := by
    refine List.exists_cons_of_ne_nil ?_
    rintro rfl
    rw [List.append_nil, htexts] at hcloses
    cases hcloses
  have hframes : framesAfter [] (front' ++ (kept ++ texts)) (c :: rest) =
      some (inner ++ .quoted quote :: outer) := by
    rw [framesAfter_append, hopen, Option.bind_some, hinner]
  have hcovered := covered_of_framesAfter hframes (by simp) (by
    intro heq
    rcases List.append_eq_singleton_iff.1 heq with ⟨-, heq⟩ | ⟨-, heq⟩ <;> cases heq)
  rw [List.length_append, List.append_assoc front'] at hcovered
  exact ⟨e, he, huntouched, by rwa [hmoved]⟩

/-- The edit takes a piece of one line away. -/
def CutsLine (text : List Char) (e : Edit) : Prop := e.text = [] ∧ '\n' ∉ between e.start e.stop text

/-- What closes on a line without some of its pieces closes with them. -/
theorem Revised.closesOnLine_old (h : Revised CodeEdit front edits cs cs') (hquote : isQuote quote = true)
    (hline : ∀ e ∈ edits, CutsLine (front ++ cs) e) :
    (closesOnLine quote cs' = true → closesOnLine quote cs = true) ∧ (front.getLast? = some '\\' →
      closesOnLine quote (cs'.drop 1) = true → closesOnLine quote (cs.drop 1) = true) := by
  induction h with
  | nil => exact ⟨id, fun _ => id⟩
  | @keep front edits c cs cs' later ih =>
    obtain ⟨hrest, hhidden⟩ := ih fun e he => by
      rw [List.append_assoc]
      exact hline e he
    refine ⟨?_, fun _ => hrest⟩
    by_cases hslash : c = '\\'
    · subst hslash
      rw [closesOnLine_backslash hquote, closesOnLine_backslash hquote]
      exact hhidden List.getLast?_concat
    · rw [closesOnLine_cons hslash, closesOnLine_cons hslash]
      intro hcloses
      rcases Bool.or_eq_true_iff.1 hcloses with hc | hcloses
      · rw [hc, Bool.true_or]
      · obtain ⟨hfeed, hcloses⟩ := Bool.and_eq_true_iff.1 hcloses
        rw [hfeed, hrest hcloses, Bool.true_and, Bool.or_true]
  | @edit front edits e covered cs cs' hstart hstop hfits later ih =>
    obtain ⟨htext, hfeed⟩ := hline e (by simp)
    rw [between_eq rfl hstart hstop] at hfeed
    obtain ⟨hrest, -⟩ := ih fun d hd => by
      rw [List.append_assoc]
      exact hline d (by simp [hd])
    refine ⟨fun hcloses => ?_, fun hslash => absurd (hfits.ends _ hslash) (by simp)⟩
    rw [htext, List.nil_append] at hcloses
    exact closesOnLine_append_line hfeed hfits.last (hrest hcloses)

/-! ## Reading both texts -/

/-- Nothing becomes a literal: the edits take pieces of lines away, or behind each of them the new text goes on
with code. -/
def StaysCode (front front' : List Char) (edits : List Edit) (cs cs' : List Char) : Prop :=
  (∀ e ∈ edits, CutsLine (front ++ cs) e) ∨ ∀ e ∈ edits, Untouched edits e.stop →
    ¬ Covered (front' ++ cs') (front'.length + movedFrom front.length 0 edits e.stop)

theorem Revised.staysCode_keep {front' : List Char} {c : Char}
    (later : Revised CodeEdit (front ++ [c]) edits cs cs')
    (h : StaysCode front front' edits (c :: cs) (c :: cs')) :
    StaysCode (front ++ [c]) (front' ++ [c]) edits cs cs' := by
  have hlater := later.starts
  rw [List.length_append, List.length_singleton] at hlater
  refine h.imp (fun hline e he => ?_) fun hcode e he huntouched => ?_
  · rw [List.append_assoc]
    exact hline e he
  · have hmoved := hcode e he huntouched
    rw [movedFrom_succ hlater (by have := hlater e he; omega)] at hmoved
    rw [List.append_assoc, List.length_append, List.length_append, List.length_singleton, Nat.add_assoc,
      Nat.add_comm 1]
    exact hmoved

theorem Revised.staysCode_edit {front' covered : List Char} {e : Edit} (hstart : e.start = front.length)
    (hstop : e.stop = e.start + covered.length) (later : Revised CodeEdit (front ++ covered) edits cs cs')
    (h : StaysCode front front' (e :: edits) (covered ++ cs) (e.text ++ cs')) :
    StaysCode (front ++ covered) (front' ++ e.text) edits cs cs' := by
  have hlater := later.starts
  rw [List.length_append, ← hstart, ← hstop] at hlater
  refine h.imp (fun hline d hd => ?_) fun hcode d hd huntouched => ?_
  · rw [List.append_assoc]
    exact hline d (by simp [hd])
  · have := hlater d hd
    have hmoved := hcode d (by simp [hd]) fun b hb hcover => by
      rcases List.mem_cons.1 hb with rfl | hb
      · omega
      · exact huntouched b hb hcover
    rw [movedFrom, if_neg (by omega), hstart, Nat.sub_self, Nat.add_zero, Nat.add_comm 0, movedFrom_add,
      ← Nat.add_assoc, hstop, hstart, ← List.length_append, ← List.length_append, ← List.append_assoc] at hmoved
    exact hmoved

/-- Edits in code change nothing to the reader as long as nothing becomes a literal. -/
theorem Revised.tracks_code (h : Revised CodeEdit front edits cs cs') {front' : List Char}
    {frames : List Frame} (hold : framesAfter [] front cs = some frames)
    (hnew : framesAfter [] front' cs' = some frames) (hstays : StaysCode front front' edits cs cs') :
    Tracks frames front.length edits cs cs' := by
  induction h generalizing front' frames with
  | nil => exact .rest
  | @keep front edits c cs cs' later ih =>
    have hbehind {front cs : List Char} (h : framesAfter [] front (c :: cs) = some frames) :
        framesAfter [] (front ++ [c]) cs = step frames c cs := by
      rw [framesAfter_append, List.singleton_append, h, Option.bind_some, framesAfter]
      exact Option.bind_fun_some _
    have hstays' := later.staysCode_keep hstays
    have hcloses (hquote : isQuote c = true)
        (hcode : ∀ rest, step frames c rest = some (inertFrames c rest ++ frames)) :
        closesOnLine c cs' = closesOnLine c cs := by
      have hopens {cs : List Char} (h : closesOnLine c cs = true) :
          step frames c cs = some (.quoted c :: frames) := by
        rw [hcode, inertFrames_of_isQuote hquote, if_pos h]
        rfl
      refine Bool.eq_iff_iff.2 ⟨fun hc => ?_, fun hc => ?_⟩
      · rcases hstays' with hline | hlive
        · exact (later.closesOnLine_old hquote hline).1 hc
        · by_contra hplain
          obtain ⟨e, he, huntouched, hcovered⟩ := later.exists_covered hquote
            ((hbehind hnew).trans (hopens hc)) hc (by simpa using hplain)
          exact hlive e he huntouched hcovered
      · exact later.closesOnLine_new (fun hfits => hfits.code) hquote ((hbehind hold).trans (hopens hc)) hc
    have hhead (hlooks : c ∈ ['/', '*', '`'] ∨ (c = '$' ∧ frames.head? = some .template)) :
        AlikeHead cs cs' := by
      cases later with
      | nil => exact alikeHead_of_head? rfl
      | keep => exact alikeHead_of_head? rfl
      | @edit _ _ e covered cs cs' _ _ hfits _ =>
        -- in front of an edit stands code that looks no further
        have hends := hfits.ends c List.getLast?_concat
        rcases hlooks with hlooks | ⟨rfl, htemplate⟩
        · simp only [List.mem_cons, List.not_mem_nil, or_false] at hlooks hends
          tauto
        · obtain ⟨outer, rfl⟩ := List.head?_eq_some_iff.1 htemplate
          have hcode := hfits.code
          rw [hbehind hold, step] at hcode
          split_ifs at hcode <;> simp_all
    have hsame : step frames c cs' = step frames c cs := step_congr hhead hcloses
    cases hstep : step frames c cs with
    | none =>
      have hlater := later.replaced
      rw [List.length_append] at hlater
      exact .stuck hstep (hsame.trans hstep) hlater
    | some next =>
      have hlater := ih ((hbehind hold).trans hstep) ((hbehind hnew).trans (hsame.trans hstep)) hstays'
      rw [List.length_append] at hlater
      exact .keep hstep (hsame.trans hstep) hlater
  | @edit front edits e covered cs cs' hstart hstop hfits later ih =>
    obtain rfl : [] = frames := Option.some_inj.1 (hfits.code.symm.trans hold)
    have hold' : framesAfter [] (front ++ covered) cs = some [] := by
      rw [framesAfter_append, hfits.code, Option.bind_some, hfits.neutral.reads_code]
    have hnew' : framesAfter [] (front' ++ e.text) cs' = some [] := by
      rw [framesAfter_append, hnew, Option.bind_some, (hfits.written cs').reads_code]
    have hlater := ih hold' hnew' (later.staysCode_edit hstart hstop hstays)
    rw [List.length_append, ← hstart, ← hstop] at hlater
    exact .edit hstart hstop hfits.neutral (hfits.written cs') hlater

/-! ## What stays code -/

/-- Each character that the edits keep stands in the new text where it has been moved to, and it is code there,
or literal, as it was in the old text. -/
def KeepsLiterals (text : List Char) (edits : List Edit) (result : List Char) : Prop :=
  ∀ i < text.length, Untouched edits i → result[moved edits i]? = text[i]? ∧
    (Covered result (moved edits i) ↔ Covered text i)

/-- Behind each edit the new text goes on with code. -/
def LeavesCode (edits : List Edit) (result : List Char) : Prop :=
  ∀ e ∈ edits, Untouched edits e.stop → ¬ Covered result (moved edits e.stop)

/-- No edit covers a line end. -/
def WithinLines (text : List Char) (edits : List Edit) : Prop :=
  ∀ e ∈ edits, '\n' ∉ between e.start e.stop text

instance (edits : List Edit) (result : List Char) : Decidable (LeavesCode edits result) :=
  inferInstanceAs (Decidable (∀ e ∈ edits, Untouched edits e.stop → ¬ Covered result (moved edits e.stop)))

instance (text : List Char) (edits : List Edit) : Decidable (WithinLines text edits) :=
  inferInstanceAs (Decidable (∀ e ∈ edits, '\n' ∉ between e.start e.stop text))

theorem Tracks.keepsLiterals {text result : List Char} (h : Tracks [] 0 edits text result)
    (hedits : ∀ e ∈ edits, e.start < e.stop) : KeepsLiterals text edits result := by
  intro i hi huntouched
  have hchar := h.replaced.getElem?_movedFrom hedits huntouched (Nat.zero_le i) (by omega)
  exact ⟨hchar, h.covered_moved_iff hedits huntouched hi⟩

/-- Edits in code behind which the text goes on with code are read alike. -/
theorem Revised.tracks_of_leavesCode {text result : List Char} (h : Revised CodeEdit [] edits text result)
    (hleaves : LeavesCode edits result) : Tracks [] 0 edits text result := by
  have hstays : StaysCode [] [] edits text result := by
    refine .inr fun e he huntouched => ?_
    rw [List.nil_append, List.length_nil, Nat.zero_add]
    exact hleaves e he huntouched
  exact h.tracks_code rfl rfl hstays

/-- Edits in code keep what is code and what is literal exactly when the text goes on with code behind each. -/
theorem Revised.keepsLiterals_iff {text result : List Char} (h : Revised CodeEdit [] edits text result) :
    KeepsLiterals text edits result ↔ LeavesCode edits result := by
  constructor
  · intro hkeeps e he huntouched
    obtain ⟨front, covered, behind, ⟨htext, hstart, hstop⟩, hfits⟩ := h.exists_site he
    obtain ⟨c, rest, rfl, hopens⟩ := hfits.opens
    have hcode : framesAfter [] (front ++ covered) (c :: rest) = some [] := by
      rw [framesAfter_append, hfits.code, Option.bind_some, hfits.neutral.reads_code]
    have hlive := not_covered_of_framesAfter hcode hopens
    rw [List.nil_append, ← List.append_assoc] at htext
    rw [← htext, List.length_append, ← hstart, ← hstop] at hlive
    have hlen : e.stop < text.length := by
      rw [htext, List.length_append, List.length_append, List.length_cons]
      omega
    rwa [(hkeeps e.stop hlen huntouched).2]
  · intro hleaves
    exact (h.tracks_of_leavesCode hleaves).keepsLiterals fun e he => (h.starts e he).2

/-- Pieces of lines can be taken out of code. -/
theorem Revised.keepsLiterals_of_cutsLine {text result : List Char}
    (h : Revised CodeEdit [] edits text result) (hline : ∀ e ∈ edits, CutsLine text e) :
    KeepsLiterals text edits result := by
  have hstays : StaysCode [] [] edits text result := .inl hline
  exact (h.tracks_code rfl rfl hstays).keepsLiterals fun e he => (h.starts e he).2

end Codemod.Source
