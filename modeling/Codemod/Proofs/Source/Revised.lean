import Codemod.Proofs.Source.Mute
import Codemod.Proofs.Source.Tracks

/-! A text with its edits carried out where they stand. When they exchange mute pieces, the text is read before
and after alike, whatever is open in front of it. -/
namespace Codemod.Source
open Text

/-! ## Edits where they stand -/

/-- Where an edit stands in a text: what is in front of it, what it covers and what follows. -/
structure Site (text : List Char) (e : Edit) (front covered behind : List Char) : Prop where
  text_eq : text = front ++ (covered ++ behind)
  start_eq : e.start = front.length
  stop_eq : e.stop = e.start + covered.length

/-- What is in front of an edit, what it covers, what follows and the edit itself. -/
abbrev EditProperty := (front covered behind : List Char) → Edit → Prop

/-- The new text is the old one, behind `front`, with the edits carried out, each of which has the property
where it stands. -/
inductive Revised (P : EditProperty) : List Char → List Edit → List Char → List Char → Prop
  | nil {front : List Char} : Revised P front [] [] []
  | keep {front : List Char} {edits : List Edit} {c : Char} {cs cs' : List Char}
      (later : Revised P (front ++ [c]) edits cs cs') : Revised P front edits (c :: cs) (c :: cs')
  | edit {front : List Char} {edits : List Edit} {e : Edit} {covered cs cs' : List Char}
      (start : e.start = front.length) (stop : e.stop = e.start + covered.length)
      (fits : P front covered cs e) (later : Revised P (front ++ covered) edits cs cs') :
      Revised P front (e :: edits) (covered ++ cs) (e.text ++ cs')

variable {P : EditProperty} {front : List Char} {edits : List Edit} {cs cs' : List Char}

theorem Revised.keepAll (kept : List Char) (h : Revised P (front ++ kept) edits cs cs') :
    Revised P front edits (kept ++ cs) (kept ++ cs') := by
  induction kept generalizing front with
  | nil => rwa [List.append_nil] at h
  | cons c kept ih =>
    refine .keep (ih ?_)
    rwa [List.append_assoc]

theorem revised_self (P : EditProperty) (front cs : List Char) : Revised P front [] cs cs := by
  have hnil : Revised P (front ++ cs) [] [] [] := .nil
  simpa using hnil.keepAll cs

/-- Each edit stands in the text and has the property there. -/
theorem Revised.exists_site (h : Revised P front edits cs cs') {e : Edit} (he : e ∈ edits) :
    ∃ front' covered behind, Site (front ++ cs) e front' covered behind ∧ P front' covered behind e := by
  induction h with
  | nil => cases he
  | @keep front edits c cs cs' _ ih =>
    obtain ⟨front', covered, behind, ⟨htext, hstart, hstop⟩, hfits⟩ := ih he
    rw [List.append_assoc] at htext
    exact ⟨front', covered, behind, ⟨htext, hstart, hstop⟩, hfits⟩
  | @edit front edits d covered cs cs' hstart hstop hfits _ ih =>
    rcases List.mem_cons.1 he with rfl | he
    · exact ⟨front, covered, cs, ⟨rfl, hstart, hstop⟩, hfits⟩
    · obtain ⟨front', covered', behind, ⟨htext, hstart', hstop'⟩, hfits'⟩ := ih he
      rw [List.append_assoc] at htext
      exact ⟨front', covered', behind, ⟨htext, hstart', hstop'⟩, hfits'⟩

/-- Edits that are carried out are so where they stand. -/
theorem Replaced.revised {text : List Char} {pos : Nat} (h : Replaced pos edits cs cs')
    (htext : text = front ++ cs) (hpos : pos = front.length)
    (hedits : ∀ e ∈ edits, ∃ front covered behind, Site text e front covered behind ∧
      P front covered behind e) : Revised P front edits cs cs' := by
  induction h generalizing front with
  | rest => exact revised_self P front _
  | @edit pos e edits cs cs' kept covered hstart hstop later ih =>
    subst hpos
    obtain ⟨front', covered', behind, ⟨htext', hstart', hstop'⟩, hfits⟩ := hedits e (by simp)
    rw [← List.append_assoc] at htext
    obtain ⟨rfl, hrest⟩ := List.append_inj (htext.symm.trans htext') (by rw [List.length_append]; omega)
    obtain ⟨rfl, rfl⟩ := List.append_inj hrest (by omega)
    refine .keepAll kept (.edit hstart' hstop hfits (ih ?_ ?_ fun d hd => hedits d (by simp [hd])))
    · rw [htext, List.append_assoc (front ++ kept)]
    · rw [List.length_append, hstop, hstart']

theorem Revised.replaced (h : Revised P front edits cs cs') : Replaced front.length edits cs cs' := by
  induction h with
  | nil => exact .rest _ []
  | keep _ ih =>
    rw [List.length_append] at ih
    exact ih.cons _
  | edit hstart hstop _ _ ih =>
    rw [List.length_append, ← hstart, ← hstop] at ih
    exact .edit [] _ (by rw [hstart, List.length_nil, Nat.add_zero]) hstop ih

theorem Revised.starts_of_covers (h : Revised P front edits cs cs')
    (hcovers : ∀ {front covered behind e}, P front covered behind e → covered ≠ []) :
    ∀ e ∈ edits, front.length ≤ e.start ∧ e.start < e.stop := by
  intro e he
  obtain ⟨front', covered, behind, ⟨-, -, hstop⟩, hfits⟩ := h.exists_site he
  have hlen := List.length_pos_of_ne_nil (hcovers hfits)
  exact ⟨(h.replaced.cursor_le e he).1, by omega⟩

theorem Revised.imp {Q : EditProperty} (h : Revised P front edits cs cs')
    (hfits : ∀ {front covered behind e}, P front covered behind e → Q front covered behind e) :
    Revised Q front edits cs cs' := by
  induction h with
  | nil => exact .nil
  | keep _ ih => exact .keep ih
  | edit hstart hstop hfit _ ih => exact .edit hstart hstop (hfits hfit) ih

/-- What a splice carries out, when each of its edits has a place in the text. -/
theorem revised_carriedOut {text : List Char}
    (hsites : ∀ e ∈ edits, ∃ front covered behind, Site text e front covered behind)
    (hfits : ∀ e ∈ carriedOut edits, ∃ front covered behind, Site text e front covered behind ∧
      P front covered behind e) : Revised P [] (carriedOut edits) text (splice text edits) := by
  have hinside : ∀ e ∈ edits, e.start ≤ e.stop ∧ e.stop ≤ text.length := by
    intro e he
    obtain ⟨front, covered, behind, htext, hstart, hstop⟩ := hsites e he
    rw [htext, List.length_append, List.length_append]
    omega
  exact (replaced_carriedOut hinside).revised rfl rfl hfits

/-- Up to the first edit the texts are the same. -/
theorem Revised.exists_first (h : Revised P front edits cs cs') :
    (edits = [] ∧ cs' = cs) ∨ ∃ e later kept covered rest rest', edits = e :: later ∧
      cs = kept ++ (covered ++ rest) ∧ cs' = kept ++ (e.text ++ rest') ∧
      P (front ++ kept) covered rest e ∧ Revised P ((front ++ kept) ++ covered) later rest rest' := by
  induction h with
  | nil => exact .inl ⟨rfl, rfl⟩
  | @keep front edits c cs cs' _ ih =>
    refine ih.imp (fun h => ⟨h.1, congrArg (c :: ·) h.2⟩) ?_
    rintro ⟨e, later, kept, covered, rest, rest', rfl, rfl, rfl, hfits, hlater⟩
    rw [List.append_assoc front [c]] at hfits hlater
    exact ⟨e, later, c :: kept, covered, rest, rest', rfl, rfl, rfl, hfits, hlater⟩
  | @edit front edits e covered cs cs' _ _ hfits hlater _ =>
    refine .inr ⟨e, edits, [], covered, cs, cs', rfl, rfl, rfl, ?_⟩
    rw [List.append_nil]
    exact ⟨hfits, hlater⟩

/-! ## Cutting the new text -/

/-- How a piece of the old text and what has become of it end: with what is kept behind the last edit. -/
inductive EndsAlike (P : EditProperty) (front piece piece' rest : List Char) : Prop
  | kept (new : piece' = piece)
  | edit (before covered before' kept : List Char) (e : Edit) (old : piece = before ++ (covered ++ kept))
      (new : piece' = before' ++ (e.text ++ kept)) (fits : P (front ++ before) covered (kept ++ rest) e)

/-- Both texts are cut between what has become of `piece` and what follows it. -/
inductive CutBoth (P : EditProperty) (front : List Char) (edits : List Edit) (piece piece' rest rest' : List Char) :
    Prop
  | intro (left right : List Edit) (edits_eq : edits = left ++ right)
      (before : Replaced front.length left piece piece') (behind : Revised P (front ++ piece) right rest rest')
      (ends : EndsAlike P front piece piece' rest)

variable {piece piece' rest rest' : List Char}

theorem Revised.cutBoth_nil (h : Revised P front edits cs cs') : CutBoth P front edits [] [] cs cs' :=
  .intro [] edits rfl (.rest _ []) (by rwa [List.append_nil]) (.kept rfl)

theorem CutBoth.keep {c : Char} (h : CutBoth P (front ++ [c]) edits piece piece' rest rest') :
    CutBoth P front edits (c :: piece) (c :: piece') rest rest' := by
  obtain ⟨left, right, hedits, hbefore, hbehind, hends⟩ := h
  rw [List.length_append] at hbefore
  rw [List.append_assoc] at hbehind
  refine .intro left right hedits (hbefore.cons c) hbehind ?_
  cases hends with
  | kept hnew => exact .kept (congrArg (c :: ·) hnew)
  | edit before covered before' kept e hold hnew hfits =>
    rw [List.append_assoc] at hfits
    exact .edit (c :: before) covered (c :: before') kept e (congrArg (c :: ·) hold) (congrArg (c :: ·) hnew) hfits

theorem CutBoth.edit {e : Edit} {covered : List Char} (hstart : e.start = front.length)
    (hstop : e.stop = e.start + covered.length) (hfits : P front covered (piece ++ rest) e)
    (h : CutBoth P (front ++ covered) edits piece piece' rest rest') :
    CutBoth P front (e :: edits) (covered ++ piece) (e.text ++ piece') rest rest' := by
  obtain ⟨left, right, hedits, hbefore, hbehind, hends⟩ := h
  rw [List.length_append, ← hstart, ← hstop] at hbefore
  rw [List.append_assoc] at hbehind
  refine .intro (e :: left) right (congrArg (e :: ·) hedits) (.edit [] covered (by simp [hstart]) hstop hbefore)
    hbehind ?_
  cases hends with
  | kept hnew =>
    rw [hnew]
    refine .edit [] covered [] piece e rfl rfl ?_
    rwa [List.append_nil]
  | edit before covered' before' kept d hold hnew hfits' =>
    rw [List.append_assoc] at hfits'
    refine .edit (covered ++ before) covered' (e.text ++ before') kept d ?_ ?_ hfits'
    · rw [hold, List.append_assoc]
    · rw [hnew, List.append_assoc]

/-- Where the new text is cut: the old one is cut there too, or the cut is inside the new text of an edit. -/
inductive CutNew (P : EditProperty) (front : List Char) (edits : List Edit) (cs piece' rest' : List Char) : Prop
  | kept (piece rest : List Char) (old : cs = piece ++ rest) (both : CutBoth P front edits piece piece' rest rest')
  | inside (e : Edit) (lead covered behind before x y behind' : List Char) (text : e.text = x ++ y) (left : x ≠ [])
      (right : y ≠ []) (old : piece' = before ++ x) (new : rest' = y ++ behind') (fits : P lead covered behind e)

theorem CutNew.cons {lead ds : List Char} {edits' : List Edit} (h : CutNew P lead edits' ds piece' rest')
    (piece₀ : List Char)
    (hkept : ∀ piece rest, ds = piece ++ rest → CutBoth P lead edits' piece piece' rest rest' →
      CutNew P front edits cs (piece₀ ++ piece') rest') : CutNew P front edits cs (piece₀ ++ piece') rest' := by
  cases h with
  | kept piece rest hold hboth => exact hkept piece rest hold hboth
  | inside e lead' covered behind before x y behind' htext hx hy hbefore hnew hfits =>
    exact .inside e lead' covered behind (piece₀ ++ before) x y behind' htext hx hy
      (by rw [hbefore, List.append_assoc]) hnew hfits

/-- The new text can be cut anywhere. -/
theorem Revised.cutNew (h : Revised P front edits cs (piece' ++ rest')) :
    CutNew P front edits cs piece' rest' := by
  generalize hcs' : piece' ++ rest' = cs' at h
  have hnil {front : List Char} {edits : List Edit} {cs : List Char} (h : Revised P front edits cs rest') :
      CutNew P front edits cs [] rest' := .kept [] cs rfl h.cutBoth_nil
  induction h generalizing piece' with
  | nil =>
    obtain ⟨rfl, rfl⟩ := List.append_eq_nil_iff.1 hcs'
    exact hnil .nil
  | @keep front edits c cs cs' later ih =>
    cases piece' with
    | nil =>
      rw [List.nil_append] at hcs'
      subst hcs'
      exact hnil (.keep later)
    | cons d piece' =>
      obtain ⟨rfl, htail⟩ := List.cons.inj hcs'
      exact (ih htail).cons [d] fun piece rest hold hboth =>
        .kept (d :: piece) rest (congrArg (d :: ·) hold) hboth.keep
  | @edit front edits e covered cs cs' hstart hstop hfits later ih =>
    have hedit {piece' : List Char} (h : CutNew P (front ++ covered) edits cs piece' rest') :
        CutNew P front (e :: edits) (covered ++ cs) (e.text ++ piece') rest' :=
      h.cons e.text fun piece rest hold hboth => by
        subst hold
        exact .kept (covered ++ piece) rest (List.append_assoc _ _ _).symm (hboth.edit hstart hstop hfits)
    rcases List.append_eq_append_iff.1 hcs' with ⟨y, htext, hrest⟩ | ⟨piece', rfl, hlater⟩
    · by_cases hx : piece' = []
      · subst hx
        rw [List.nil_append] at hcs'
        subst hcs'
        exact hnil (.edit hstart hstop hfits later)
      · by_cases hy : y = []
        · subst hy
          rw [List.append_nil] at htext
          have hnone : [] ++ rest' = cs' := by rw [hrest]; rfl
          have hcut := hedit (ih hnone)
          rwa [List.append_nil, htext] at hcut
        · exact .inside e front covered cs [] piece' y cs' htext hx hy rfl hrest hfits
    · exact hedit (ih hlater.symm)

/-- Where the old text is cut: the new one is cut there too, or the cut is inside what an edit covers. -/
inductive CutOld (P : EditProperty) (front : List Char) (edits : List Edit) (piece rest cs' : List Char) : Prop
  | kept (piece' rest' : List Char) (new : cs' = piece' ++ rest')
      (both : CutBoth P front edits piece piece' rest rest')
  | inside (e : Edit) (lead covered behind before x y : List Char) (text : covered = x ++ y) (left : x ≠ [])
      (right : y ≠ []) (old : piece = before ++ x) (fits : P lead covered behind e)

theorem CutOld.cons {lead ds' : List Char} {edits' : List Edit} (h : CutOld P lead edits' piece rest ds')
    (piece₀ : List Char)
    (hkept : ∀ piece' rest', ds' = piece' ++ rest' → CutBoth P lead edits' piece piece' rest rest' →
      CutOld P front edits (piece₀ ++ piece) rest cs') : CutOld P front edits (piece₀ ++ piece) rest cs' := by
  cases h with
  | kept piece' rest' hnew hboth => exact hkept piece' rest' hnew hboth
  | inside e lead' covered behind before x y htext hx hy hbefore hfits =>
    exact .inside e lead' covered behind (piece₀ ++ before) x y htext hx hy (by rw [hbefore, List.append_assoc]) hfits

/-- The old text can be cut anywhere. -/
theorem Revised.cutOld (h : Revised P front edits (piece ++ rest) cs') :
    CutOld P front edits piece rest cs' := by
  generalize hcs : piece ++ rest = cs at h
  have hnil {front : List Char} {edits : List Edit} {cs' : List Char} (h : Revised P front edits rest cs') :
      CutOld P front edits [] rest cs' := .kept [] cs' rfl h.cutBoth_nil
  induction h generalizing piece with
  | nil =>
    obtain ⟨rfl, rfl⟩ := List.append_eq_nil_iff.1 hcs
    exact hnil .nil
  | @keep front edits c cs cs' later ih =>
    cases piece with
    | nil =>
      rw [List.nil_append] at hcs
      subst hcs
      exact hnil (.keep later)
    | cons d piece =>
      obtain ⟨rfl, htail⟩ := List.cons.inj hcs
      exact (ih htail).cons [d] fun piece' rest' hnew hboth =>
        .kept (d :: piece') rest' (congrArg (d :: ·) hnew) hboth.keep
  | @edit front edits e covered cs cs' hstart hstop hfits later ih =>
    have hedit {piece : List Char} (hcs : cs = piece ++ rest)
        (h : CutOld P (front ++ covered) edits piece rest cs') :
        CutOld P front (e :: edits) (covered ++ piece) rest (e.text ++ cs') :=
      h.cons covered fun piece' rest' hnew hboth => by
        subst hnew hcs
        exact .kept (e.text ++ piece') rest' (List.append_assoc _ _ _).symm (hboth.edit hstart hstop hfits)
    rcases List.append_eq_append_iff.1 hcs with ⟨y, htext, hrest⟩ | ⟨piece, rfl, hlater⟩
    · by_cases hx : piece = []
      · subst hx
        rw [List.nil_append] at hcs
        subst hcs
        exact hnil (.edit hstart hstop hfits later)
      · by_cases hy : y = []
        · subst hy
          rw [List.append_nil] at htext
          have hnone : [] ++ rest = cs := by rw [hrest]; rfl
          have hcut := hedit hnone.symm (ih hnone)
          rwa [List.append_nil, htext] at hcut
        · exact .inside e front covered cs [] piece y htext hx hy rfl hfits
    · exact hedit hlater (ih hlater.symm)

/-! ## What is kept -/

/-- Each edit exchanges names, which begin behind no character that goes on with one. -/
structure ExchangesNames (goesOn : Char → Bool) (P : EditProperty) : Prop where
  old : ∀ {front covered behind e}, P front covered behind e → ∃ c ∈ covered.head?, isNameStart c = true
  new : ∀ {front covered behind e}, P front covered behind e → ∃ c ∈ e.text.head?, isNameStart c = true
  behind : ∀ {front covered behind e}, P front covered behind e → ∀ c ∈ front.getLast?, goesOn c = false

/-- In the piece behind `front` no exchanged name begins. -/
def NoNameIn (goesOn : Char → Bool) (front piece : List Char) : Prop := ∀ x c y, piece = x ++ c :: y →
  isNameStart c = false ∨ ∃ d ∈ (front ++ x).getLast?, goesOn d = true

theorem noNameIn_of_forall {goesOn : Char → Bool} {piece : List Char} (h : ∀ c ∈ piece, isNameStart c = false)
    (front : List Char) : NoNameIn goesOn front piece := fun _ c _ hxy => .inl (h c (by simp [hxy]))

/-- Inside a name no other one begins. -/
theorem noNameIn_of_goesOn {goesOn : Char → Bool} {piece : List Char} (hlast : ∃ d ∈ front.getLast?, goesOn d = true)
    (hpiece : ∀ c ∈ piece, goesOn c = true) : NoNameIn goesOn front piece := by
  refine fun x c y hxy => .inr ?_
  by_cases hx : x = []
  · rwa [hx, List.append_nil]
  · obtain ⟨d, hd⟩ := Option.ne_none_iff_exists'.1 (mt List.getLast?_eq_none_iff.1 hx)
    refine ⟨d, by rwa [getLast?_append_of_ne_nil front hx], hpiece d ?_⟩
    rw [hxy]
    exact List.mem_append_left _ (List.mem_of_getLast? hd)

theorem NoNameIn.tail {goesOn : Char → Bool} {c : Char} {piece : List Char}
    (h : NoNameIn goesOn front (c :: piece)) : NoNameIn goesOn (front ++ [c]) piece := fun x d y hxy => by
  rw [List.append_assoc]
  exact h (c :: x) d y (congrArg (c :: ·) hxy)

theorem NoNameIn.append {goesOn : Char → Bool} {piece later : List Char} (h : NoNameIn goesOn front piece)
    (hlater : NoNameIn goesOn (front ++ piece) later) : NoNameIn goesOn front (piece ++ later) := by
  intro x c y hxy
  rcases List.append_eq_append_iff.1 hxy with ⟨left, rfl, hleft⟩ | ⟨right, rfl, hright⟩
  · rw [← List.append_assoc]
    exact hlater left c y hleft
  · cases right with
    | nil =>
      rw [List.append_nil] at hlater
      have hnone := hlater [] c y hright.symm
      rwa [List.append_nil] at hnone
    | cons d right =>
      obtain ⟨rfl, -⟩ := List.cons.inj hright
      exact h x c right rfl

section

variable {goesOn : Char → Bool}

theorem ExchangesNames.not_begins (hP : ExchangesNames goesOn P) {covered : List Char} {e : Edit}
    (hfits : P front covered cs e) {c : Char} {piece : List Char} (h : NoNameIn goesOn front (c :: piece))
    (hc : covered.head? = some c ∨ e.text.head? = some c) : False := by
  have hstart : isNameStart c = true := by
    rcases hc with hc | hc
    · obtain ⟨d, hd, hstart⟩ := hP.old hfits
      rwa [← Option.some_inj.1 (hd.symm.trans hc)]
    · obtain ⟨d, hd, hstart⟩ := hP.new hfits
      rwa [← Option.some_inj.1 (hd.symm.trans hc)]
  rcases h [] c piece rfl with hno | ⟨d, hd, hgoes⟩
  · rw [hstart] at hno
    cases hno
  · rw [List.append_nil] at hd
    rw [hP.behind hfits d hd] at hgoes
    cases hgoes

/-- What no exchanged name begins in is kept from the new text. -/
theorem Revised.keep_new (hP : ExchangesNames goesOn P) (h : Revised P front edits cs (piece ++ rest'))
    (hpiece : NoNameIn goesOn front piece) :
    ∃ rest, cs = piece ++ rest ∧ Revised P (front ++ piece) edits rest rest' := by
  induction piece generalizing front cs with
  | nil => exact ⟨cs, rfl, by rwa [List.append_nil]⟩
  | cons c piece ih =>
    generalize hcs' : c :: piece ++ rest' = cs' at h
    cases h with
    | nil => cases hcs'
    | @keep _ _ d cs cs' later =>
      obtain ⟨rfl, rfl⟩ := List.cons.inj hcs'
      obtain ⟨rest, rfl, hrest⟩ := ih later hpiece.tail
      rw [List.append_assoc] at hrest
      exact ⟨rest, rfl, hrest⟩
    | @edit _ _ e covered cs cs' _ _ hfits _ =>
      obtain ⟨d, hd, -⟩ := hP.new hfits
      obtain ⟨tail, htext⟩ := List.head?_eq_some_iff.1 hd
      rw [htext] at hcs'
      exact (hP.not_begins hfits hpiece (.inr (by rw [htext, (List.cons.inj hcs').1]; rfl))).elim

/-- What no exchanged name begins in is kept from the old text. -/
theorem Revised.keep_old (hP : ExchangesNames goesOn P) (h : Revised P front edits (piece ++ rest) cs')
    (hpiece : NoNameIn goesOn front piece) :
    ∃ rest', cs' = piece ++ rest' ∧ Revised P (front ++ piece) edits rest rest' := by
  induction piece generalizing front cs' with
  | nil => exact ⟨cs', rfl, by rwa [List.append_nil]⟩
  | cons c piece ih =>
    generalize hcs : c :: piece ++ rest = cs at h
    cases h with
    | nil => cases hcs
    | @keep _ _ d cs cs' later =>
      obtain ⟨rfl, rfl⟩ := List.cons.inj hcs
      obtain ⟨rest', rfl, hrest⟩ := ih later hpiece.tail
      rw [List.append_assoc] at hrest
      exact ⟨rest', rfl, hrest⟩
    | @edit _ _ e covered cs cs' _ _ hfits _ =>
      obtain ⟨d, hd, -⟩ := hP.old hfits
      obtain ⟨tail, rfl⟩ := List.head?_eq_some_iff.1 hd
      exact (hP.not_begins hfits hpiece (.inl (by rw [(List.cons.inj hcs).1]; rfl))).elim

end

/-! ## What a step looks at -/

/-- What follows is the same to a character that looks at one more. -/
structure AlikeHead (cs cs' : List Char) : Prop where
  isEmpty : cs'.isEmpty = cs.isEmpty
  head : ∀ d, isNameStart d = false → (cs'.head? = some d ↔ cs.head? = some d)

theorem alikeHead_of_head? (h : cs'.head? = cs.head?) : AlikeHead cs cs' := by
  refine ⟨?_, fun d _ => by rw [h]⟩
  cases cs <;> cases cs' <;> simp_all

theorem inertFrames_slash_congr (h : AlikeHead cs cs') : inertFrames '/' cs' = inertFrames '/' cs := by
  have heq (cs : List Char) : inertFrames '/' cs = if cs.head? = some '/' then [.lineComment]
      else if cs.head? = some '*' then [.second, .blockComment] else [] := by
    cases cs with
    | nil => rfl
    | cons d cs =>
      by_cases hslash : d = '/'
      · subst hslash
        rfl
      · by_cases hstar : d = '*'
        · subst hstar
          rfl
        · simp [inertFrames, hslash, hstar]
  simp only [heq, h.head '/' (by decide), h.head '*' (by decide)]

/-- A step looks further only at a slash, a star or a backquote, at a dollar sign in a template, and at a quote
in code. -/
theorem step_congr {frames : List Frame} {c : Char}
    (hhead : c ∈ ['/', '*', '`'] ∨ (c = '$' ∧ frames.head? = some .template) → AlikeHead cs cs')
    (hcloses : isQuote c = true → (∀ rest, step frames c rest = some (inertFrames c rest ++ frames)) →
      closesOnLine c cs' = closesOnLine c cs) : step frames c cs' = step frames c cs := by
  have hinert (hstep : ∀ rest, step frames c rest = some (inertFrames c rest ++ frames)) :
      inertFrames c cs' = inertFrames c cs := by
    by_cases hslash : c = '/'
    · subst hslash
      exact inertFrames_slash_congr (hhead (by simp))
    · simp only [inertFrames, hslash, if_false, quoteFrames]
      by_cases hquote : isQuote c = true
      · rw [if_pos hquote, if_pos hquote, hcloses hquote hstep]
      · rw [if_neg hquote, if_neg hquote]
        by_cases htick : c = '`'
        · rw [(hhead (by simp [htick])).isEmpty]
        · simp [htick]
  have hbeq (h : AlikeHead cs cs') (d : Char) (hd : isNameStart d = false) :
      (cs'.head? == some d) = (cs.head? == some d) :=
    Bool.eq_iff_iff.2 (by simpa only [beq_iff_eq] using h.head d hd)
  unfold step at hinert ⊢
  split
  · rw [hinert fun _ => by rw [List.append_nil]]
  · rfl
  · rfl
  · by_cases hdollar : c = '$'
    · rw [hbeq (hhead (.inr ⟨hdollar, rfl⟩)) '{' (by decide)]
    · simp [hdollar]
  · rfl
  · by_cases hstar : c = '*'
    · rw [hbeq (hhead (.inl (by simp [hstar]))) '/' (by decide)]
    · simp [hstar]
  · next closer outer =>
    by_cases hbracket : isBracket c = true
    · rw [inertFrames_of_isBracket hbracket, inertFrames_of_isBracket hbracket]
    · obtain ⟨hopen, hcloser⟩ : closer? c = none ∧ isCloser c = false := by
        simpa [isBracket] using hbracket
      rw [hinert fun _ => by simp [hopen, hcloser]]

/-! ## Mute pieces in exchange -/

/-- A mute piece takes the place of another. -/
def MuteEdit : EditProperty := fun _ covered behind e => Mute covered behind ∧ Mute e.text behind

theorem Revised.alikeHead (h : Revised MuteEdit front edits cs cs') : AlikeHead cs cs' := by
  cases h with
  | nil => exact alikeHead_of_head? rfl
  | keep => exact alikeHead_of_head? rfl
  | @edit _ _ e covered cs cs' _ _ hmute _ =>
    obtain ⟨c, hc, hstart⟩ := hmute.1.head
    obtain ⟨c', hc', hstart'⟩ := hmute.2.head
    obtain ⟨piece, rfl⟩ := List.head?_eq_some_iff.1 hc
    obtain ⟨piece', heq⟩ := List.head?_eq_some_iff.1 hc'
    rw [heq]
    refine ⟨rfl, fun d hd => ?_⟩
    have hne {b : Char} (hb : isNameStart b = true) : b ≠ d := by
      rintro rfl
      rw [hb] at hd
      cases hd
    simp [hne hstart, hne hstart']

/-- Whether a literal closes on its line is settled by what is kept. -/
theorem Revised.closesOnLine_eq (h : Revised MuteEdit front edits cs cs') {quote : Char}
    (hquote : isQuote quote = true) : closesOnLine quote cs' = closesOnLine quote cs ∧
      closesOnLine quote (cs'.drop 1) = closesOnLine quote (cs.drop 1) := by
  induction h with
  | nil => exact ⟨rfl, rfl⟩
  | @keep front edits c cs cs' _ ih =>
    refine ⟨?_, ih.1⟩
    by_cases hc : c = '\\'
    · subst hc
      rw [closesOnLine_backslash hquote, closesOnLine_backslash hquote, ih.2]
    · rw [closesOnLine_cons hc, closesOnLine_cons hc, ih.1]
  | @edit front edits e covered cs cs' _ _ hmute _ ih =>
    have hpiece {piece rest : List Char} (h : Mute piece rest) (cs : List Char) :
        closesOnLine quote (piece ++ cs) = closesOnLine quote cs ∧
          closesOnLine quote ((piece ++ cs).drop 1) = closesOnLine quote cs := by
      have hcalm := h.calm quote hquote
      obtain ⟨c, tail, rfl⟩ := List.exists_cons_of_ne_nil h.ne_nil
      exact ⟨closesOnLine_append hcalm cs, closesOnLine_append (fun d hd => hcalm d (by simp [hd])) cs⟩
    rw [(hpiece hmute.1 cs).1, (hpiece hmute.2 cs').1, (hpiece hmute.1 cs).2, (hpiece hmute.2 cs').2]
    exact ⟨ih.1, ih.1⟩

/-- In front of both texts the reader does the same. -/
theorem Revised.step_eq (h : Revised MuteEdit front edits cs cs') (frames : List Frame) (c : Char) :
    step frames c cs' = step frames c cs :=
  step_congr (fun _ => h.alikeHead) fun hquote _ => (h.closesOnLine_eq hquote).1

/-- Mute pieces change nothing to the reader, whatever is open in front of the texts. -/
theorem Revised.tracks (h : Revised MuteEdit front edits cs cs') {frames : List Frame}
    (hframes : Formed frames) : Tracks frames front.length edits cs cs' := by
  induction h generalizing frames with
  | nil => exact .rest
  | @keep front edits c cs cs' later ih =>
    have hsame := later.step_eq frames c
    cases hstep : step frames c cs with
    | none =>
      have hlater := later.replaced
      rw [List.length_append] at hlater
      exact .stuck hstep (hsame.trans hstep) hlater
    | some next =>
      have hlater := ih (hframes.of_step hstep)
      rw [List.length_append] at hlater
      exact .keep hstep (hsame.trans hstep) hlater
  | @edit front edits e covered cs cs' hstart hstop hmute later ih =>
    have hlater := ih hframes.unhide
    rw [List.length_append, ← hstart, ← hstop] at hlater
    exact .edit hstart hstop (hmute.1.passes_unhide hframes id)
      (hmute.2.passes_unhide hframes (later.alikeHead.head '{' (by decide)).1) hlater

end Codemod.Source
