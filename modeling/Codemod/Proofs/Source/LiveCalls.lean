import Codemod.Proofs.Source.CallEdits
import Codemod.Proofs.Source.InCode

/-! Calls under a new name, and the literals and comments of the text. A call is looked for in these too, so one
of them is written anew exactly when something that looks like a call of the name begins in it and is carried
out. -/
namespace Codemod.Source
open Text

/-! ## Edits that rename -/

/-- The edits give names to calls, and do nothing else. -/
def RenamesOnly (edits : List CallEdit) : Prop :=
  ∀ e ∈ edits, e.action = .rename ∧ (e.value.any fun v => isMemberExpression v.toList) = true

instance (edits : List CallEdit) : Decidable (RenamesOnly edits) :=
  inferInstanceAs (Decidable (∀ e ∈ edits, _ ∧ _))

variable {text callee new front cs cs' : List Char} {calls : List CallEdit} {edits : List Edit}

/-- Whatever a call is given as arguments, it has one name behind the edits. -/
theorem RenamesOnly.exists_name (h : RenamesOnly calls) (callee : List Char) :
    ∃ name, (name = callee ∨ DottedName name) ∧
      ∀ inner, editedCall callee inner calls = ⟨name, splitArguments inner⟩ := by
  induction calls generalizing callee with
  | nil => exact ⟨callee, .inl rfl, fun _ => rfl⟩
  | cons e calls ih =>
    obtain ⟨haction, hvalue⟩ := h e (by simp)
    obtain ⟨v, hv, hmember⟩ := (Option.any_eq_true _ _).1 hvalue
    have hname := dottedName_of_isMemberExpression hmember
    obtain ⟨name, hlast, hedited⟩ := ih (fun d hd => h d (by simp [hd])) v.toList
    refine ⟨name, .inr (hlast.elim (fun heq => heq ▸ hname) id), fun inner => ?_⟩
    have hfirst : e.apply (readCall callee inner) = readCall v.toList inner := by
      obtain ⟨c, cs, hcons⟩ := List.exists_cons_of_ne_nil hname.ne_nil
      simp only [CallEdit.apply, haction, hv, Option.map_some, hcons, readCall]
    rw [editedCall, List.foldl_cons, hfirst]
    exact hedited inner

theorem EditsCall.renamesCall {gap inner covered behind : List Char} {e : Edit}
    (h : EditsCall callee calls gap inner front covered behind e)
    (hname : editedCall callee inner calls = ⟨new, splitArguments inner⟩) :
    RenamesCall callee new front covered behind e where
  split := by
    have hkept : writtenArguments callee inner calls = inner := by
      rw [writtenArguments, hname, if_pos rfl]
    exact ⟨gap, inner ++ [')'], h.calls.blank, h.old, by rw [h.new, hname, hkept]⟩
  behind := h.calls.behind

/-- Where the edits leave a call its name they leave it as it is. -/
theorem callEdits_eq_nil_of_name (hname : ∀ inner, editedCall callee inner calls = readCall callee inner) :
    callEdits text callee calls = [] := by
  refine List.eq_nil_iff_forall_not_mem.2 fun e he => ?_
  obtain ⟨_, _, _, -, gap, inner, hedits⟩ := exists_site_callEdit he
  exact hedits.changed (hname inner)

/-- Of the calls that are renamed only the names are exchanged. -/
theorem revised_renamed (text : List Char)
    (hname : ∀ inner, editedCall callee inner calls = ⟨new, splitArguments inner⟩) :
    Revised (RenamesName callee new) []
      ((carriedOut (callEdits text callee calls)).map fun e => ⟨e.start, e.start + callee.length, new⟩) text
      (splice text (callEdits text callee calls)) :=
  ((revised_callEdits text callee calls).imp fun ⟨_, inner, hedits⟩ => hedits.renamesCall (hname inner)).renamesName

/-! ## Names in code -/

/-- A name is exchanged in code, and the old one opens no literal or comment. -/
structure RenamesLiveName (callee new front covered behind : List Char) (e : Edit) : Prop
    extends RenamesName callee new front covered behind e where
  code : framesAfter [] front (covered ++ behind) = some []
  plain : Plain covered behind

theorem plain_of_not_covered {covered behind : List Char} (hline : '\n' ∉ covered)
    (h : ∀ i, front.length ≤ i → i < front.length + covered.length → ¬ Covered (front ++ (covered ++ behind)) i) :
    Plain covered behind := by
  induction covered generalizing front with
  | nil => trivial
  | cons c covered ih =>
    have hc : c ≠ '\n' := fun hc => hline (by simp [hc])
    have hfirst := h front.length (Nat.le_refl _) (by simp)
    have hlater : ∀ i, (front ++ [c]).length ≤ i → i < (front ++ [c]).length + covered.length →
        ¬ Covered (front ++ [c] ++ (covered ++ behind)) i := by
      intro i hlow hhigh
      rw [List.length_append, List.length_singleton] at hlow hhigh
      rw [List.append_assoc]
      exact h i (by omega) (by rw [List.length_cons]; omega)
    exact ⟨((not_covered_iff_opens hc).1 hfirst).2, ih (fun hm => hline (by simp [hm])) hlater⟩

/-- Names that stand in code are exchanged there. -/
theorem Revised.renamesLiveName (h : Revised (RenamesName callee new) [] edits text cs') (hcallee : callee ≠ [])
    (hline : '\n' ∉ callee) (hlive : ∀ e ∈ edits, ∀ i, e.start ≤ i → i < e.start + callee.length → ¬ Covered text i) :
    Revised (RenamesLiveName callee new) [] edits text cs' := by
  refine h.replaced.revised rfl rfl fun e he => ?_
  obtain ⟨front, covered, behind, hsite, hfits⟩ := h.exists_site he
  have hlive := hlive e he
  rw [List.nil_append] at hsite
  rw [hsite.start_eq, hsite.text_eq, ← hfits.old] at hlive
  rw [← hfits.old] at hcallee hline
  refine ⟨front, covered, behind, hsite, hfits, ?_, plain_of_not_covered hline hlive⟩
  obtain ⟨c, tail, rfl⟩ := List.exists_cons_of_ne_nil hcallee
  have hc : c ≠ '\n' := fun hc => hline (by simp [hc])
  exact ((not_covered_iff_opens hc).1 (hlive front.length (Nat.le_refl _) (by simp))).1

/-! ## Literals that close -/

variable {quote : Char}

/-- A piece of a line can be put in front of what closes with no quote and no backslash in front. -/
theorem closesOnLine_append_plain {piece cs : List Char} {d : Char} (hfeed : '\n' ∉ piece)
    (hquote : isQuote quote = true) (hd : d ≠ quote ∧ d ≠ '\\') (h : closesOnLine quote (d :: cs) = true) :
    closesOnLine quote (piece ++ d :: cs) = true := by
  induction piece using closesOnLine.induct with
  | case1 => exact h
  | case2 c piece ih => exact ih fun hm => hfeed (by simp [hm])
  | case3 c piece hno ih =>
    by_cases hc : c = '\\'
    · subst hc
      cases piece with
      | nil =>
        -- the backslash hides a character that closes nothing
        rw [closesOnLine_cons hd.2] at h
        rw [List.singleton_append, closesOnLine_backslash hquote]
        have hrest := (Bool.or_eq_true_iff.1 h).resolve_left (by simpa using hd.1)
        exact (Bool.and_eq_true_iff.1 hrest).2
      | cons e piece => exact absurd rfl (hno e piece rfl)
    · have hline : c ≠ '\n' := fun hc => hfeed (by simp [hc])
      rw [List.cons_append, closesOnLine_cons hc, ih fun hm => hfeed (by simp [hm])]
      simp [hline]

/-- What follows a called name is no quote and no backslash. -/
theorem RenamesName.exists_behind {covered behind : List Char} {e : Edit}
    (h : RenamesName callee new front covered behind e) :
    ∃ d rest, behind = d :: rest ∧ isQuote d = false ∧ d ≠ '\\' := by
  obtain ⟨gap, rest, rfl, hgap⟩ := h.opens
  cases gap with
  | nil => exact ⟨'(', rest, rfl, by decide, by decide⟩
  | cons d gap =>
    have hblank := hgap d (by simp)
    refine ⟨d, gap ++ '(' :: rest, rfl, ?_, ?_⟩
    · by_contra hd
      rcases eq_of_isQuote (by simpa using hd) with rfl | rfl
      · exact absurd hblank (by decide)
      · exact absurd hblank (by decide)
    · rintro rfl
      exact absurd hblank (by decide)

/-- A literal that closes with the new names closes with the old ones, which end no line. -/
theorem Revised.closesOnLine_renamed (h : Revised (RenamesName callee new) front edits cs cs')
    (hcallee : callee ≠ []) (hline : '\n' ∉ callee) (hnew : DottedName new) (hquote : isQuote quote = true) :
    (closesOnLine quote cs' = true → closesOnLine quote cs = true) ∧
      (closesOnLine quote (cs'.drop 1) = true → closesOnLine quote (cs.drop 1) = true) := by
  induction h with
  | nil => exact ⟨id, id⟩
  | @keep front edits c cs cs' _ ih =>
    refine ⟨fun hcloses => ?_, ih.1⟩
    by_cases hc : c = '\\'
    · subst hc
      rw [closesOnLine_backslash hquote] at hcloses ⊢
      exact ih.2 hcloses
    · rw [closesOnLine_cons hc] at hcloses ⊢
      rcases Bool.or_eq_true_iff.1 hcloses with hends | hcloses
      · rw [hends, Bool.true_or]
      · obtain ⟨hfeed, hcloses⟩ := Bool.and_eq_true_iff.1 hcloses
        rw [hfeed, ih.1 hcloses, Bool.true_and, Bool.or_true]
  | @edit front edits e covered cs cs' _ _ hfits _ ih =>
    obtain ⟨d, rest, rfl, hd, hslash⟩ := hfits.exists_behind
    have hne : d ≠ quote := by
      rintro rfl
      rw [hquote] at hd
      cases hd
    have hcalm : ∀ c ∈ new, Calm quote c := fun c hc =>
      calm_of_isAttributeChar hquote (isAttributeChar_of_continuesName (hnew.chars c hc))
    obtain ⟨c, name, rfl⟩ := List.exists_cons_of_ne_nil hnew.ne_nil
    obtain ⟨c', tail, rfl⟩ := List.exists_cons_of_ne_nil hcallee
    rw [hfits.old, hfits.new]
    have hback (piece : List Char) (hpiece : '\n' ∉ piece) (hcloses : closesOnLine quote cs' = true) :
        closesOnLine quote (piece ++ d :: rest) = true :=
      closesOnLine_append_plain hpiece hquote ⟨hne, hslash⟩ (ih.1 hcloses)
    refine ⟨fun hcloses => hback _ hline ?_, fun hcloses => hback tail (fun hm => hline (by simp [hm])) ?_⟩
    · rwa [closesOnLine_append hcalm] at hcloses
    · rwa [List.cons_append, List.drop_one, List.tail_cons,
        closesOnLine_append fun x hx => hcalm x (by simp [hx])] at hcloses

/-! ## Reading both texts -/

/-- What leaves nothing open in front of some text does so in front of a name. -/
theorem step_eq_nil_of_name {frames : List Frame} {c : Char} {rest rest' : List Char}
    (h : step frames c rest = some []) (hrest : rest ≠ []) (hname : ∃ d ∈ rest'.head?, isNameStart d = true)
    (hcloses : isQuote c = true → closesOnLine c rest' = true → closesOnLine c rest = true) :
    step frames c rest' = some [] := by
  obtain ⟨d, hd, hstart⟩ := hname
  obtain ⟨tail, rfl⟩ := List.head?_eq_some_iff.1 hd
  have hne {b : Char} (hb : isNameStart b = false) : d ≠ b := by
    rintro rfl
    rw [hstart] at hb
    cases hb
  have hinert (h : inertFrames c rest = []) : inertFrames c (d :: tail) = [] := by
    by_cases hslash : c = '/'
    · subst hslash
      simp [inertFrames, hne (b := '/') (by decide), hne (b := '*') (by decide)]
    · by_cases hquote : isQuote c = true
      · rw [inertFrames_of_isQuote hquote] at h ⊢
        refine if_neg fun hc => ?_
        rw [if_pos (hcloses hquote hc)] at h
        cases h
      · have htick : c ≠ '`' := by
          rintro rfl
          simp [inertFrames, quoteFrames, isQuote, hrest] at h
        simp [inertFrames, hslash, quoteFrames, hquote, htick]
  cases frames with
  | nil => exact congrArg some (hinert (Option.some_inj.1 h))
  | cons frame outer =>
    cases frame with
    | second => exact h
    | quoted => exact h
    | template =>
      have hbrace : ((d :: tail).head? == some '{') = false := by simpa using hne (b := '{') (by decide)
      simp only [step, hbrace, Bool.and_false, Bool.false_eq_true, if_false, Option.some_inj] at h ⊢
      split_ifs at h ⊢
      exact h
    | lineComment => exact h
    | blockComment =>
      simp only [step, Option.some_inj] at h
      split_ifs at h
    | bracket closer =>
      simp only [step] at h ⊢
      split at h
      · next hcloser => rwa [if_pos hcloser]
      · split at h
        · cases h
        · simp at h

/-- In front of names that are exchanged in code the reader does the same. -/
theorem Revised.step_renamed {c : Char} (h : Revised (RenamesLiveName callee new) (front ++ [c]) edits cs cs')
    (hcallee : callee ≠ []) (hline : '\n' ∉ callee) (hnew : DottedName new) {frames : List Frame}
    (hopen : framesAfter [] front (c :: cs) = some frames) : step frames c cs' = step frames c cs := by
  have hbehind : framesAfter [] (front ++ [c]) cs = step frames c cs := by
    rw [framesAfter_append, List.singleton_append, hopen, Option.bind_some, framesAfter]
    exact Option.bind_fun_some _
  have hold (hquote : isQuote c = true) : closesOnLine c cs' = true → closesOnLine c cs = true :=
    ((h.imp fun hfits => hfits.toRenamesName).closesOnLine_renamed hcallee hline hnew hquote).1
  have hcloses (hquote : isQuote c = true) (hcode : ∀ rest, step frames c rest = some (inertFrames c rest ++ frames)) :
      closesOnLine c cs' = closesOnLine c cs := by
    refine Bool.eq_iff_iff.2 ⟨hold hquote, fun hc => ?_⟩
    have hopens : framesAfter [] (front ++ [c]) cs = some (.quoted c :: frames) := by
      rw [hbehind, hcode, inertFrames_of_isQuote hquote, if_pos hc]
      rfl
    exact h.closesOnLine_new (fun hfits => hfits.code) hquote hopens hc
  cases h with
  | nil => rfl
  | keep => exact step_congr (fun _ => alikeHead_of_head? rfl) hcloses
  | @edit _ _ e covered cs cs' _ _ hfits _ =>
    -- the old name stands in code, so nothing is open in front of the new one
    have hnone : step frames c (covered ++ cs) = some [] := hbehind.symm.trans hfits.code
    rw [hnone]
    refine step_eq_nil_of_name hnone ?_ ?_ hold
    · simp [hfits.old, hcallee]
    · obtain ⟨d, hd, hstart⟩ := hnew.start
      obtain ⟨tail, rfl⟩ := List.head?_eq_some_iff.1 hd
      exact ⟨d, by rw [hfits.new]; rfl, hstart⟩

/-! ## Literals and comments -/

theorem plain_of_dottedName (hnew : DottedName new) (rest : List Char) : Plain new rest := by
  have hchars := hnew.chars
  clear hnew
  induction new with
  | nil => trivial
  | cons c new ih =>
    exact ⟨inertFrames_of_isAttributeChar (isAttributeChar_of_continuesName (hchars c (by simp))) _,
      ih fun d hd => hchars d (by simp [hd])⟩

/-- What the reader makes of characters when frames are open: what goes on with the literal that is open, and the
literals and comments behind it. -/
def inertAhead (frames : List Frame) (cs : List Char) : List Char × List (List Char) :=
  (openText (cs.zip (marksFrom frames cs)), inertTextsOf (cs.zip (marksFrom frames cs)))

/-- Characters of code in front add nothing. -/
theorem inertAhead_plain {piece : List Char} (hne : piece ≠ []) (h : Plain piece cs) :
    inertAhead [] (piece ++ cs) = ([], (inertAhead [] cs).2) := by
  obtain ⟨c, tail, rfl⟩ := List.exists_cons_of_ne_nil hne
  rw [inertAhead, zip_marksFrom_plain h, inertTextsOf_live]
  rfl

/-- With nothing open no literal goes on. -/
theorem inertAhead_nil_fst (cs : List Char) : (inertAhead [] cs).1 = [] := by
  have hlead : leading (marksFrom [] cs) = 0 := leading_eq_zero (led_marksFrom (fun _ => rfl) cs)
  rw [inertAhead, openText_zip cs (by simp), hlead, List.take_zero]

/-- Names that are exchanged in code leave the literals and comments. -/
theorem Revised.inertAhead_renamed (h : Revised (RenamesLiveName callee new) front edits cs cs')
    (hcallee : callee ≠ []) (hline : '\n' ∉ callee) (hnew : DottedName new) {frames : List Frame}
    (hopen : framesAfter [] front cs = some frames) : inertAhead frames cs' = inertAhead frames cs := by
  induction h generalizing frames with
  | nil => rfl
  | @keep front edits c cs cs' later ih =>
    have hsame := later.step_renamed hcallee hline hnew hopen
    have hbehind : framesAfter [] (front ++ [c]) cs = step frames c cs := by
      rw [framesAfter_append, List.singleton_append, hopen, Option.bind_some, framesAfter]
      exact Option.bind_fun_some _
    cases hstep : step frames c cs with
    | none =>
      -- behind a mismatch nothing is code, so no name is exchanged there
      rcases later.exists_first with ⟨-, rfl⟩ | ⟨e, _, kept, covered, rest, rest', -, rfl, rfl, hfits, -⟩
      · rfl
      · have hcode := hfits.code
        rw [framesAfter_append, hbehind, hstep, Option.bind_none] at hcode
        cases hcode
    | some next =>
      have hrest := ih (hbehind.trans hstep)
      obtain ⟨hopenText, hinert⟩ := Prod.mk.inj hrest
      simp only [inertAhead, marksFrom, hsame, hstep, List.zip_cons_cons, openText_cons, inertTextsOf, hopenText,
        hinert]
  | @edit front edits e covered cs cs' hstart hstop hfits later ih =>
    obtain rfl : [] = frames := Option.some_inj.1 (hfits.code.symm.trans hopen)
    have hnext : framesAfter [] (front ++ covered) cs = some [] := by
      rw [framesAfter_append, hfits.code, Option.bind_some, framesAfter_plain hfits.plain]
    have hcovered : covered ≠ [] := hfits.old ▸ hcallee
    rw [hfits.new, inertAhead_plain hcovered hfits.plain, inertAhead_plain hnew.ne_nil (plain_of_dottedName hnew cs'),
      ih hnext]

/-! ## Names in literals and comments -/

/-- A character is hidden by nothing but itself only where a block comment ends. -/
theorem head?_of_step_second {frames : List Frame} (hframes : Formed frames) {c : Char} {rest : List Char}
    (h : step frames c rest = some [.second]) : rest.head? = some '/' := by
  have hnot {frame : Frame} {outer : List Frame} (hformed : Formed (frame :: outer)) : outer ≠ [.second] := fun h =>
    hformed.second (by simp [h])
  match frames, h with
  | [], h =>
    have hinert := Option.some_inj.1 h
    unfold inertFrames quoteFrames at hinert
    split at hinert
    · split at hinert <;> cases hinert
    · split_ifs at hinert <;> cases hinert
  | .second :: outer, h => exact absurd (Option.some_inj.1 h) (hnot hframes)
  | .quoted _ :: outer, h =>
    have houter := hnot hframes
    simp only [step, Option.some_inj] at h
    split_ifs at h <;> simp_all
  | .template :: outer, h =>
    have houter := hnot hframes
    simp only [step, Option.some_inj] at h
    split_ifs at h <;> simp_all
  | .lineComment :: outer, h =>
    have houter := hnot hframes
    simp only [step, Option.some_inj] at h
    split_ifs at h <;> simp_all
  | .blockComment :: outer, h =>
    simp only [step, Option.some_inj] at h
    split_ifs at h with hends
    · exact beq_iff_eq.1 (Bool.and_eq_true_iff.1 hends).2
    · cases h
  | .bracket closer :: outer, h =>
    have houter := hnot hframes
    simp only [step] at h
    split at h
    · split_ifs at h
      exact absurd (Option.some_inj.1 h) houter
    · split at h
      · cases h
      · rcases List.append_eq_singleton_iff.1 (Option.some_inj.1 h) with ⟨-, heq⟩ | ⟨-, heq⟩ <;> cases heq

theorem DottedName.isQuiet {name : List Char} (h : DottedName name) : ∀ c ∈ name, isQuiet c = true :=
  fun c hc => isQuiet_of_isAttributeChar (isAttributeChar_of_continuesName (h.chars c hc))

/-- A name goes on with the literal or comment it stands in. -/
theorem inertAhead_quiet {frames : List Frame} (hformed : Formed frames) (hopen : frames ≠ [])
    (hhead : frames.head? ≠ some .second) {piece : List Char} (hpiece : ∀ c ∈ piece, isQuiet c = true)
    (hcs : cs.head? ≠ some '{') : (inertAhead frames (piece ++ cs)).1 = piece ++ (inertAhead frames cs).1 := by
  induction piece with
  | nil => rfl
  | cons c piece ih =>
    have hquiet := hpiece c (by simp)
    have hbrace : (piece ++ cs).head? ≠ some '{' := by
      cases piece with
      | nil => exact hcs
      | cons d piece =>
        intro hd
        exact ne_of_isQuiet (hpiece d (by simp)) (by decide) (Option.some_inj.1 hd)
    have hstep : step frames c (piece ++ cs) = some frames := step_of_isQuiet hformed hhead hquiet fun _ => hbrace
    have hmark : markOf frames frames c = .inside := by
      unfold markOf
      split
      · exact absurd rfl hopen
      · exact if_neg (ne_of_isQuiet hquiet (by decide))
      · rfl
    have hrest := ih fun d hd => hpiece d (by simp [hd])
    simp only [inertAhead] at hrest ⊢
    rw [List.cons_append, marksFrom, hstep, List.zip_cons_cons, openText_cons, hmark, if_pos rfl, hrest]
    rfl

/-- So does one whose first character is hidden. -/
theorem inertAhead_name {frames : List Frame} (hformed : Formed frames) (hopen : frames ≠ [])
    (hsecond : frames ≠ [.second]) (hnew : DottedName new) (hcs : cs.head? ≠ some '{') :
    (inertAhead frames (new ++ cs)).1 = new ++ (inertAhead (unhide frames) cs).1 := by
  have hquiet := hnew.isQuiet
  by_cases hhead : frames.head? = some .second
  · obtain ⟨outer, rfl⟩ := List.head?_eq_some_iff.1 hhead
    obtain ⟨c, tail, rfl⟩ := List.exists_cons_of_ne_nil hnew.ne_nil
    have houter : outer ≠ [] := fun h => hsecond (by rw [h])
    have hhead' : outer.head? ≠ some .second := fun hm => hformed.second (List.mem_of_mem_head? hm)
    have hrest : (inertAhead outer (tail ++ cs)).1 = tail ++ (inertAhead outer cs).1 :=
      inertAhead_quiet hformed.tail houter hhead' (fun d hd => hquiet d (by simp [hd])) hcs
    exact congrArg (c :: ·) hrest
  · rw [unhide_of_head? hhead]
    exact inertAhead_quiet hformed hopen hhead hquiet hcs

/-- What goes on with a literal is a piece of the text. -/
theorem inertAhead_fst (frames : List Frame) (cs : List Char) :
    (inertAhead frames cs).1 = cs.take (leading (marksFrom frames cs)) :=
  openText_zip cs (by simp)

/-- A name that is exchanged in a literal or comment changes it. -/
theorem RenamesName.inertAhead_ne (hcallee : DottedName callee) (hnew : DottedName new) (hne : new ≠ callee)
    {covered : List Char} {e : Edit} (hfits : RenamesName callee new front covered cs e)
    (hlater : Revised (RenamesName callee new) (front ++ covered) edits cs cs') {frames : List Frame}
    (hformed : Formed frames) (hopen : frames ≠ []) (hsecond : frames ≠ [.second]) :
    (inertAhead frames (e.text ++ cs')).1 ≠ (inertAhead frames (covered ++ cs)).1 := by
  obtain ⟨gap, more, rfl, hgap⟩ := hfits.opens
  rw [List.append_cons] at hlater
  obtain ⟨more', rfl, -⟩ := hlater.keep_old (exchangesNames_renamesName hcallee hnew)
    (noNameIn_of_forall (isNameStart_of_mem_opening hgap) _)
  rw [← List.append_cons]
  have hbrace (rest : List Char) : (gap ++ '(' :: rest).head? ≠ some '{' := by
    intro hbrace
    cases gap with
    | nil => cases hbrace
    | cons b gap =>
      obtain rfl := Option.some_inj.1 hbrace
      exact absurd (hgap '{' (by simp)) (by decide)
  have hends (rest : List Char) (n : Nat) : ∀ c ∈ ((gap ++ '(' :: rest).take n).head?, continuesName c = false := by
    intro c hc
    refine head?_continuesName_eq_false hgap rest c ?_
    cases n with
    | zero => cases hc
    | succ n => rwa [List.head?_take, if_neg (Nat.succ_ne_zero n)] at hc
  rw [hfits.new, hfits.old, inertAhead_name hformed hopen hsecond hnew (hbrace more'),
    inertAhead_name hformed hopen hsecond hcallee (hbrace more), inertAhead_fst, inertAhead_fst]
  exact fun heq => hne (span_unique hnew.chars hcallee.chars (hends _ _) (hends _ _) heq).1

/-- Two texts go on alike behind a character that the reader does the same for. -/
theorem inertAhead_of_cons {frames next : List Frame} {c : Char} (hold : step frames c cs = some next)
    (hnew : step frames c cs' = some next) (h : inertAhead frames (c :: cs') = inertAhead frames (c :: cs)) :
    inertAhead next cs' = inertAhead next cs := by
  obtain ⟨hopen, htexts⟩ := Prod.mk.inj h
  simp only [marksFrom, hold, hnew, List.zip_cons_cons, openText_cons, inertTextsOf] at hopen htexts
  cases hmark : markOf frames next c with
  | opening =>
    rw [if_pos hmark, if_pos hmark] at htexts
    obtain ⟨hfirst, hrest⟩ := List.cons.inj htexts
    exact Prod.ext (List.cons.inj hfirst).2 hrest
  | inside =>
    rw [if_pos hmark, if_pos hmark] at hopen
    rw [if_neg (by simp [hmark]), if_neg (by simp [hmark])] at htexts
    exact Prod.ext (List.cons.inj hopen).2 htexts
  | live =>
    rw [if_neg (by simp [hmark]), if_neg (by simp [hmark])] at htexts
    have hnil : next = [] := by
      rcases markOf_eq_live_iff.1 hmark with ⟨-, hnext⟩ | ⟨rfl, rfl⟩
      · exact hnext
      · simpa [step] using hold.symm
    subst hnil
    exact Prod.ext ((inertAhead_nil_fst cs').trans (inertAhead_nil_fst cs).symm) htexts

/-- Where the reader stops, all that follows goes on with the literal. -/
theorem inertAhead_of_stuck {frames : List Frame} {c : Char} (h : step frames c cs = none) :
    (inertAhead frames (c :: cs)).1 = c :: cs := by
  have hall : leading (Mark.inside :: cs.map fun _ => Mark.inside) = cs.length + 1 := by
    rw [leading, List.takeWhile_eq_self_iff.2 (by simp)]
    simp
  rw [inertAhead_fst, marksFrom, h]
  dsimp only
  rw [hall, List.take_of_length_le (by simp)]

/-- A text in which a name is exchanged is another one. -/
theorem Revised.eq_nil_of_eq (h : Revised (RenamesName callee new) front edits cs cs') (hcallee : DottedName callee)
    (hnew : DottedName new) (hne : new ≠ callee) (hsame : cs' = cs) : edits = [] := by
  rcases h.exists_first with ⟨rfl, -⟩ | ⟨e, _, kept, covered, rest, rest', -, rfl, rfl, hfits, hlater⟩
  · rfl
  · obtain ⟨gap, more, rfl, hgap⟩ := hfits.opens
    have hback := List.append_cancel_left hsame
    rw [hfits.old] at hback
    exact absurd hback (hfits.append_ne hcallee hnew hne hlater hgap more)

/-- Where literals and comments stay, names have been exchanged in code only. -/
theorem Revised.not_covered_of_inertAhead (h : Revised (RenamesName callee new) front edits cs cs')
    (hcallee : DottedName callee) (hnew : DottedName new) (hne : new ≠ callee) {frames : List Frame}
    (hformed : Formed frames) (hsecond : frames = [.second] → cs.head? = some '/')
    (hopen : framesAfter [] front cs = some frames) (hsame : inertAhead frames cs' = inertAhead frames cs) :
    ∀ e ∈ edits, ¬ Covered (front ++ cs) e.start := by
  induction h generalizing frames with
  | nil => simp
  | @keep front edits c cs cs' later ih =>
    have hstep := (later.imp fun hfits => hfits.muteEdit hcallee hnew).step_eq frames c
    have hbehind : framesAfter [] (front ++ [c]) cs = step frames c cs := by
      rw [framesAfter_append, List.singleton_append, hopen, Option.bind_some, framesAfter]
      exact Option.bind_fun_some _
    cases hnext : step frames c cs with
    | none =>
      have heq := congrArg Prod.fst hsame
      rw [inertAhead_of_stuck hnext, inertAhead_of_stuck (hstep.trans hnext)] at heq
      rw [later.eq_nil_of_eq hcallee hnew hne (List.cons.inj heq).2]
      simp
    | some next =>
      have hlater := ih (hformed.of_step hnext) (fun h => head?_of_step_second hformed (h ▸ hnext))
        (hbehind.trans hnext) (inertAhead_of_cons hnext (hstep.trans hnext) hsame)
      rwa [List.append_assoc] at hlater
  | @edit front edits e covered cs cs' hstart hstop hfits later ih =>
    have hplain : Plain covered cs := hfits.old ▸ plain_of_dottedName hcallee cs
    have hcovered : covered ≠ [] := hfits.old ▸ hcallee.ne_nil
    obtain ⟨c, tail, hcons⟩ := List.exists_cons_of_ne_nil hcovered
    have hnil : frames = [] := by
      by_contra hframes
      refine hfits.inertAhead_ne hcallee hnew hne later hformed hframes (fun h => ?_) (congrArg Prod.fst hsame)
      obtain ⟨d, hd, hname⟩ := hcallee.start
      rw [← hfits.old, hcons] at hd
      have hslash := hsecond h
      rw [hcons] at hslash
      obtain rfl := Option.some_inj.1 hslash
      obtain rfl := Option.some_inj.1 hd
      exact absurd hname (by decide)
    subst hnil
    intro d hd
    rcases List.mem_cons.1 hd with rfl | hd
    · rw [hcons] at hopen hplain ⊢
      rw [hstart]
      exact not_covered_of_framesAfter hopen hplain.1
    · have hnext : framesAfter [] (front ++ covered) cs = some [] := by
        rw [framesAfter_append, hopen, Option.bind_some, framesAfter_plain hplain]
      have hrest : inertAhead [] cs' = inertAhead [] cs := by
        have htexts := congrArg Prod.snd hsame
        rw [hfits.new, inertAhead_plain hcovered hplain,
          inertAhead_plain hnew.ne_nil (plain_of_dottedName hnew cs')] at htexts
        exact Prod.ext ((inertAhead_nil_fst cs').trans (inertAhead_nil_fst cs).symm) htexts
      have hlater := ih formed_nil (by simp) hnext hrest d hd
      rwa [List.append_assoc] at hlater

/-! ## Renamed calls -/

theorem inertTexts_eq_inertAhead (text : List Char) : inertTexts text = (inertAhead [] text).2 := inertTexts_eq text

/-- Where the whole of each name that is exchanged is code, literals and comments stay. -/
theorem inertTexts_splice_callEdits {name : List Char} (hcallee : callee ≠ []) (hline : '\n' ∉ callee)
    (hnew : DottedName name) (hname : ∀ inner, editedCall callee inner calls = ⟨name, splitArguments inner⟩)
    (hlive : ∀ e ∈ carriedOut (callEdits text callee calls), ∀ i, e.start ≤ i → i < e.start + callee.length →
      ¬ Covered text i) :
    inertTexts (splice text (callEdits text callee calls)) = inertTexts text := by
  have hrevised := (revised_renamed text hname).renamesLiveName hcallee hline fun d hd => by
    obtain ⟨e, he, rfl⟩ := List.mem_map.1 hd
    exact hlive e he
  have hcode : framesAfter [] [] text = some [] := rfl
  have hsame := hrevised.inertAhead_renamed hcallee hline hnew hcode
  rw [inertTexts_eq_inertAhead, inertTexts_eq_inertAhead, hsame]

/-- What begins in code with a name is code up to its end. -/
theorem not_covered_of_name (hcallee : DottedName callee) {behind : List Char}
    (h : ¬ Covered (front ++ (callee ++ behind)) front.length) :
    ∀ i, front.length ≤ i → i < front.length + callee.length → ¬ Covered (front ++ (callee ++ behind)) i := by
  intro i hlow hhigh
  have hplain := plain_of_dottedName hcallee behind
  have hmarks : (marks (front ++ (callee ++ behind))).drop front.length =
      (callee.map fun _ => .live) ++ marksFrom [] behind := by
    obtain ⟨c, tail, rfl⟩ := List.exists_cons_of_ne_nil hcallee.ne_nil
    have hc : c ≠ '\n' := ne_of_isQuiet
      (hcallee.isQuiet c (by simp)) (by decide)
    rw [← marksFrom_plain hplain]
    exact drop_marks_of_live hc hplain.1 h
  have hlive : (marks (front ++ (callee ++ behind)))[i]? = some .live := by
    obtain ⟨k, rfl⟩ := Nat.exists_eq_add_of_le hlow
    rw [← List.getElem?_drop, hmarks, List.getElem?_append_left (by simp; omega), List.getElem?_map,
      List.getElem?_eq_getElem (by omega)]
    rfl
  rw [covered_iff, hlive]
  simp

/-- Giving the calls of a name another one, in any text: the literals and comments stay as they are, in order,
when all of each name that is exchanged is code. For a member expression this is so exactly when no call that is
carried out begins in a literal or comment: one that does is written anew there. -/
theorem rewriteCall_inertTexts (text callee : List Char) {calls : List CallEdit} (hcalls : RenamesOnly calls) :
    let carried := carriedOut (callEdits text callee calls)
    let renamed := rewriteCall text callee calls
    ('\n' ∉ callee → (∀ e ∈ carried, ∀ i, e.start ≤ i → i < e.start + callee.length → ¬ Covered text i) →
        inertTexts renamed = inertTexts text) ∧
      (isMemberExpression callee = true →
        (inertTexts renamed = inertTexts text ↔ ∀ e ∈ carried, ¬ Covered text e.start)) := by
  obtain ⟨name, hname, hedited⟩ := hcalls.exists_name callee
  by_cases hempty : callee = []
  · subst hempty
    exact ⟨fun _ _ => rfl, fun h => absurd (dottedName_of_isMemberExpression h).ne_nil (by simp)⟩
  rw [rewriteCall_eq_splice text hempty]
  by_cases hsame : name = callee
  · -- the edits end with the name the call has
    rw [callEdits_eq_nil_of_name fun inner => hsame ▸ hedited inner, splice_nil]
    simp [carriedOut, carriedFrom]
  have hnew := hname.resolve_left hsame
  refine ⟨fun hline hlive => inertTexts_splice_callEdits hempty hline hnew hedited hlive, fun hmember => ?_⟩
  have hcallee := dottedName_of_isMemberExpression hmember
  have hrevised := revised_renamed text hedited
  constructor
  · intro hinert e he
    have hahead : inertAhead [] (splice text (callEdits text callee calls)) = inertAhead [] text := by
      rw [inertTexts_eq_inertAhead, inertTexts_eq_inertAhead] at hinert
      exact Prod.ext ((inertAhead_nil_fst _).trans (inertAhead_nil_fst _).symm) hinert
    exact hrevised.not_covered_of_inertAhead hcallee hnew hsame formed_nil (by simp) rfl hahead
      ⟨e.start, e.start + callee.length, name⟩ (List.mem_map.2 ⟨e, he, rfl⟩)
  · intro hlive
    have hline : '\n' ∉ callee := fun hm => absurd (hcallee.chars _ hm) (by decide)
    refine inertTexts_splice_callEdits hempty hline hnew hedited fun e he => ?_
    obtain ⟨front, covered, behind, hsite, gap, inner, hedits⟩ := exists_site_callEdit (mem_of_mem_carriedOut he)
    have hstart := hlive e he
    rw [hsite.start_eq, hsite.text_eq, hedits.old, List.append_assoc] at hstart ⊢
    exact not_covered_of_name hcallee hstart

theorem rewriteCall_inertTexts_sample :
    let calls : List CallEdit := [⟨.rename, none, some "g"⟩]
    RenamesOnly calls ∧
      inertTexts (rewriteCall "f(1) // f".toList "f".toList calls) = inertTexts "f(1) // f".toList ∧
      inertTexts (rewriteCall "'f(1)'".toList "f".toList calls) ≠ inertTexts "'f(1)'".toList := by
  intro calls
  have hcalls : RenamesOnly calls := by decide +kernel
  have hcallee : isMemberExpression "f".toList = true := by decide
  have hcarried (e : Edit) : carriedOut [e] = [e] := by simp [carriedOut, carriedFrom]
  have hcode : callEdits "f(1) // f".toList "f".toList calls = [⟨0, 4, "g(1)".toList⟩] := by decide +kernel
  have hquoted : callEdits "'f(1)'".toList "f".toList calls = [⟨1, 5, "g(1)".toList⟩] := by decide +kernel
  refine ⟨hcalls, ?_, fun hsame => ?_⟩
  · refine ((rewriteCall_inertTexts _ _ hcalls).2 hcallee).2 ?_
    rw [hcode, hcarried]
    decide +kernel
  · have hnone := ((rewriteCall_inertTexts _ _ hcalls).2 hcallee).1 hsame
    rw [hquoted, hcarried] at hnone
    revert hnone
    decide +kernel

end Codemod.Source
