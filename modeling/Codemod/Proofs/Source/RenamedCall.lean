import Codemod.Proofs.Source.Called
import Codemod.Proofs.Source.Revised

/-! Calls under a new name. A call is renamed as a whole, so a call that begins inside a renamed one keeps its name;
all other calls are renamed, and no new call of the old name comes about. -/
namespace Codemod.Source
open Text

/-! ## The edits -/

/-- The edits of a call that give it a new name. -/
def renameEdits (index : Option Int) (new : String) : List CallEdit := [⟨.rename, index, some new⟩]

/-- A call with the new name in place of the old one. -/
def CallRange.renamed (c : CallRange) (text callee new : List Char) : Edit :=
  ⟨c.start, c.stop, new ++ between (c.start + callee.length) c.stop text⟩

/-- What is carried out to give the calls of a name a new one. -/
def callRenames (text callee new : List Char) : List Edit :=
  (callRanges text callee).map (·.renamed text callee new)

variable {text callee : List Char} {new : String}

theorem editCallAt?_renameEdits (hne : new.toList ≠ callee) (hnew : new.toList ≠ []) (index : Option Int)
    {front rest : List Char} {f : Found (List Char)} (htext : text = front ++ (callee ++ (f.value ++ '(' :: rest)))
    (hstart : f.start = front.length) (hlen : f.length = callee.length + f.value.length + 1) :
    editCallAt? text callee (renameEdits index new) f =
      (if declaresFunction (text.take f.start) then none
        else (bracketExtent? '(' (text.drop f.stop)).map fun n => (⟨f.start, f.stop + n⟩ : CallRange)).map
          (·.renamed text callee new.toList) := by
  unfold editCallAt?
  split
  · rfl
  have hdrop : text.drop f.stop = rest := htext ▸ (take_drop_opening callee f.value rest hstart hlen).2
  rw [hdrop]
  dsimp only
  cases hn : bracketExtent? '(' rest with
  | none => rfl
  | some n =>
    have happly (args : List (List Char)) : (renameEdits index new).foldl CallEdit.apply ⟨callee, args⟩ =
        ⟨new.toList, args⟩ := by
      obtain ⟨c, cs, hcons⟩ := List.exists_cons_of_ne_nil hnew
      simp [renameEdits, CallEdit.apply, hcons]
    have hchanged (args : List (List Char)) : (⟨new.toList, args⟩ : Call) ≠ ⟨callee, args⟩ := fun h =>
      hne (congrArg Call.name h)
    -- the parenthesis that closes is the last character of the range
    have htake : rest.take n = rest.take (n - 1) ++ [')'] := by
      obtain ⟨hpos, -⟩ := bracketExtent?_le hn
      have hget := getElem?_of_bracketExtent? rfl hn
      rw [show n = n - 1 + 1 by omega, List.take_add_one, Nat.add_sub_cancel, hget]
      rfl
    have hbetween : between (f.start + callee.length) (f.stop + n) text = f.value ++ '(' :: rest.take n := by
      have hlength : (rest.take n).length = n := List.length_take_of_le (bracketExtent?_le hn).2
      have hstop : f.stop + n = front.length + (callee ++ (f.value ++ '(' :: rest.take n)).length := by
        simp only [Found.stop, hstart, hlen, List.length_append, List.length_cons, hlength]
        omega
      have hpart := between_opening front callee f.value (rest.take n) (rest.drop n)
      rwa [List.take_append_drop, ← htext, ← hstop, ← hstart] at hpart
    dsimp only [Option.map_some]
    rw [happly, if_neg (hchanged _), if_pos rfl, CallRange.renamed, hbetween, htake]
    simp

theorem rewriteCall_renameEdits (hcallee : DottedName callee) (hnew : new.toList ≠ []) (hne : new.toList ≠ callee)
    (index : Option Int) : rewriteCall text callee (renameEdits index new) =
      splice text (callRenames text callee new.toList) := by
  have hempty : (callee.isEmpty || (renameEdits index new).isEmpty) = false := by
    simp [renameEdits, hcallee.ne_nil]
  rw [rewriteCall, hempty, callRenames, callRanges, List.map_filterMap]
  simp only [Bool.false_eq_true, if_false]
  refine congrArg (splice text) (List.filterMap_congr fun f hf => ?_)
  obtain ⟨front, rest, htext, -, -, hstart, hlen⟩ := (mem_found_calledName_iff hcallee).1 hf
  exact editCallAt?_renameEdits hne hnew index htext hstart hlen

/-! ## Exchanged names -/

/-- The edit gives a call a new name, and writes the rest of the call as it was. -/
structure RenamesCall (callee new front covered behind : List Char) (e : Edit) : Prop where
  split : ∃ gap inner, (∀ c ∈ gap, isBlank c = true) ∧ covered = callee ++ (gap ++ '(' :: inner) ∧
    e.text = new ++ (gap ++ '(' :: inner)
  behind : (lastOr none front).any continuesName = false

/-- The edit writes the new name of a call in place of the old one. -/
structure RenamesName (callee new front covered behind : List Char) (e : Edit) : Prop where
  old : covered = callee
  new : e.text = new
  behind_name : (lastOr none front).any continuesName = false
  opens : ∃ gap rest, behind = gap ++ '(' :: rest ∧ ∀ c ∈ gap, isBlank c = true

variable {newName front cs cs' : List Char} {edits : List Edit}

/-- Of a call that is renamed only the name is exchanged. -/
theorem Revised.renamesName (h : Revised (RenamesCall callee newName) front edits cs cs') :
    Revised (RenamesName callee newName) front
      (edits.map fun e => ⟨e.start, e.start + callee.length, newName⟩) cs cs' := by
  induction h with
  | nil => exact .nil
  | keep _ ih => exact .keep ih
  | @edit front edits e covered cs cs' hstart hstop hfits _ ih =>
    obtain ⟨⟨gap, inner, hgap, rfl, htext⟩, hbehind⟩ := hfits
    rw [htext, List.append_assoc callee, List.append_assoc newName]
    rw [← List.append_assoc front] at ih
    exact @Revised.edit (RenamesName callee newName) front _ ⟨e.start, e.start + callee.length, newName⟩ callee _ _
      hstart rfl ⟨rfl, rfl, hbehind, gap, inner ++ cs, by simp, hgap⟩ (ih.keepAll _)

theorem exchangesNames_renamesName (hcallee : DottedName callee) (hnew : DottedName newName) :
    ExchangesNames continuesName (RenamesName callee newName) where
  old h := by
    rw [h.old]
    exact hcallee.start
  new h := by
    rw [h.new]
    exact hnew.start
  behind {front _ _ _} h c hc := by
    have hbehind := h.behind_name
    rw [lastOr, hc] at hbehind
    exact hbehind

theorem RenamesName.muteEdit (hcallee : DottedName callee) (hnew : DottedName newName) {covered behind : List Char}
    {e : Edit} (h : RenamesName callee newName front covered behind e) : MuteEdit front covered behind e := by
  obtain ⟨rfl, rfl, -, gap, rest, rfl, hgap⟩ := h
  have hhead : (gap ++ '(' :: rest).head? ≠ some '{' := by
    cases gap with
    | nil => simp
    | cons c gap =>
      rintro ⟨⟩
      have hblank := hgap '{' (by simp)
      revert hblank
      decide
  have hchars {name : List Char} (hname : DottedName name) : ∀ c ∈ name, isAttributeChar c = true := fun c hc =>
    isAttributeChar_of_continuesName (hname.chars c hc)
  exact ⟨mute_of_name hcallee.start (hchars hcallee) hhead, mute_of_name hnew.start (hchars hnew) hhead⟩

/-! ## Calls of both texts -/

/-- In front of a name both texts end so that the same is called there. -/
theorem EndsAlike.callsBehind_iff {piece piece' rest gap : List Char}
    (h : EndsAlike (RenamesName callee newName) front piece piece' rest)
    (hrest : ∃ c ∈ rest.head?, isNameStart c = true) : CallsBehind piece' gap ↔ CallsBehind piece gap := by
  cases h with
  | kept h => rw [h]
  | edit before covered before' kept e hold hpiece hfits =>
    -- the parenthesis of the renamed call stands in front of what follows it
    obtain ⟨gap', more, hmore, hgap'⟩ := hfits.opens
    obtain ⟨behind, rfl⟩ : ∃ behind, kept = gap' ++ '(' :: behind := by
      obtain ⟨c, hc, hstart⟩ := hrest
      obtain ⟨tail, rfl⟩ := List.head?_eq_some_iff.1 hc
      have hno : c ∉ gap' ++ ['('] := by
        intro hm
        rw [isNameStart_of_mem_opening hgap' c hm] at hstart
        cases hstart
      have hsplit : kept ++ c :: tail = (gap' ++ ['(']) ++ more := hmore.trans (by simp)
      rcases List.append_eq_append_iff.1 hsplit with ⟨left, hleft, hcons⟩ | ⟨right, hright, -⟩
      · cases left with
        | nil => exact ⟨[], by simpa using hleft.symm⟩
        | cons d left =>
          obtain rfl : c = d := (List.cons.inj hcons).1
          exact absurd (by rw [hleft]; simp) hno
      · exact ⟨right, by rw [hright]; simp⟩
    have hsame (x : List Char) : CallsBehind (x ++ (gap' ++ '(' :: behind)) gap ↔
        CallsBehind ('(' :: behind) gap := by
      rw [← List.append_assoc, callsBehind_append_iff]
    rw [hold, hpiece, ← List.append_assoc before, ← List.append_assoc before', hsame, hsame]

/-- A parenthesis closes in both texts or in neither. -/
theorem Revised.isSome_bracketExtent? (hcallee : DottedName callee) (hnew : DottedName newName)
    (h : Revised (RenamesName callee newName) front edits cs cs') :
    (bracketExtent? '(' cs').isSome = (bracketExtent? '(' cs).isSome := by
  have htracks := (h.imp fun hfits => hfits.muteEdit hcallee hnew).tracks formed_nil
  have hround (cs : List Char) : bracketExtent? '(' cs = extent? ([] ++ bracketFrames [')']) cs := rfl
  rw [hround, hround]
  cases htracks.closesAlike (by simp : [')'] ≠ []) with
  | never hold hnew => rw [hold, hnew]
  | both _ _ _ _ _ _ _ _ _ hold hnew => rw [hold, hnew]; rfl

/-- Behind the first character of a called name no exchanged name begins up to the parenthesis. -/
theorem noNameIn_call {tail gap : List Char} {c : Char} (hname : DottedName (c :: tail))
    (hgap : ∀ c ∈ gap, isBlank c = true) : NoNameIn continuesName (front ++ [c]) (tail ++ (gap ++ ['('])) := by
  have htail : NoNameIn continuesName (front ++ [c]) tail :=
    noNameIn_of_goesOn ⟨c, by simp, hname.chars c (by simp)⟩ fun d hd => hname.chars d (by simp [hd])
  exact htail.append (noNameIn_of_forall (isNameStart_of_mem_opening hgap) _)

/-- Where a new name has been written no call of the old one is read. -/
theorem RenamesName.append_ne (hcallee : DottedName callee) (hnew : DottedName newName) (hne : newName ≠ callee)
    {covered : List Char} {e : Edit} (hfits : RenamesName callee newName front covered cs e)
    (hlater : Revised (RenamesName callee newName) (front ++ covered) edits cs cs') {gap : List Char}
    (hgap : ∀ c ∈ gap, isBlank c = true) (rest : List Char) : e.text ++ cs' ≠ callee ++ (gap ++ '(' :: rest) := by
  intro heq
  obtain ⟨gap', more, rfl, hgap'⟩ := hfits.opens
  rw [List.append_cons] at hlater
  obtain ⟨more', rfl, -⟩ := hlater.keep_old (exchangesNames_renamesName hcallee hnew)
    (noNameIn_of_forall (isNameStart_of_mem_opening hgap') _)
  rw [hfits.new, ← List.append_cons] at heq
  exact hne (span_unique hnew.chars hcallee.chars (head?_continuesName_eq_false hgap' more')
    (head?_continuesName_eq_false hgap rest) heq).1

section

variable {result : List Char}

/-- A call of the old name in the new text was one in the old text, and no name was exchanged there. -/
theorem Revised.call_new (hcallee : DottedName callee) (hnew : DottedName newName) (hne : newName ≠ callee)
    (h : Revised (RenamesName callee newName) [] edits text result) {c' : CallRange}
    (hc' : c' ∈ callRanges result callee) : ∃ c ∈ callRanges text callee, ∀ e ∈ edits, e.start ≠ c.start := by
  obtain ⟨front', gap, rest', rfl, -, hcalls, hcloses⟩ := (exists_callRange_iff hcallee).1 ⟨c', hc', rfl⟩
  cases h.cutNew with
  | inside e lead covered behind before x y behind' htext hx _ hbefore _ hfits =>
    rw [hbefore] at hcalls
    exact (hcalls.not_inside hx (hfits.new.symm.trans htext) hnew.chars).elim
  | kept piece rest hold hboth =>
    obtain ⟨left, right, hedits, hbefore, hbehind, hends⟩ := hboth
    have hstart := hcallee.start
    generalize hcs' : callee ++ (gap ++ '(' :: rest') = cs' at hbehind
    cases hbehind with
    | nil => simp [hcallee.ne_nil] at hcs'
    | @edit _ _ e covered cs cs' _ _ hfits hlater =>
      exact (hfits.append_ne hcallee hnew hne hlater hcalls.blank rest' hcs'.symm).elim
    | @keep _ _ d cs cs' hlater =>
      obtain ⟨tail, rfl, rfl⟩ := hcallee.exists_cons hcs'
      have hright := hlater.replaced.cursor_le
      obtain ⟨rest, rfl, hrest⟩ := hlater.keep_new (exchangesNames_renamesName hcallee hnew)
        (noNameIn_call hcallee hcalls.blank)
      rw [hrest.isSome_bracketExtent? hcallee hnew] at hcloses
      obtain ⟨c, hc, hpos⟩ : ∃ c ∈ callRanges text (d :: tail), c.start = piece.length :=
        (exists_callRange_iff hcallee).2 ⟨piece, gap, rest, by simp [hold], rfl,
          (hends.callsBehind_iff (by simpa using hstart)).1 hcalls, hcloses⟩
      refine ⟨c, hc, fun e he => ?_⟩
      have hcovers := (h.starts_of_covers (fun hfits => hfits.old ▸ hcallee.ne_nil) e he).2
      rw [hedits] at he
      rcases List.mem_append.1 he with he | he
      · have := hbefore.cursor_le e he
        simp only [List.length_nil] at this
        omega
      · have := hright e he
        simp only [List.length_append, List.length_nil, List.length_singleton] at this
        omega

/-- A call of the old text where no name is exchanged is one in the new text. -/
theorem Revised.call_old (hcallee : DottedName callee) (hnew : DottedName newName)
    (h : Revised (RenamesName callee newName) [] edits text result) {c : CallRange}
    (hc : c ∈ callRanges text callee) (hkept : ∀ e ∈ edits, e.start ≠ c.start) :
    ∃ c', c' ∈ callRanges result callee := by
  obtain ⟨front, gap, rest, rfl, hpos, hcalls, hcloses⟩ := (exists_callRange_iff hcallee).1 ⟨c, hc, rfl⟩
  cases h.cutOld with
  | inside e lead covered behind before x y htext hx _ hbefore hfits =>
    rw [hbefore] at hcalls
    exact (hcalls.not_inside hx (hfits.old.symm.trans htext) hcallee.chars).elim
  | kept piece' rest' hresult hboth =>
    obtain ⟨left, right, hedits, -, hbehind, hends⟩ := hboth
    have hstart := hcallee.start
    generalize hcs : callee ++ (gap ++ '(' :: rest) = cs at hbehind hends
    cases hbehind with
    | nil => simp [hcallee.ne_nil] at hcs
    | @edit _ _ e covered cs cs' hestart _ _ _ =>
      rw [List.nil_append, hpos] at hestart
      exact absurd hestart (hkept e (by simp [hedits]))
    | @keep _ _ d cs cs' hlater =>
      obtain ⟨tail, rfl, rfl⟩ := hcallee.exists_cons hcs
      obtain ⟨rest', rfl, hrest⟩ := hlater.keep_old (exchangesNames_renamesName hcallee hnew)
        (noNameIn_call hcallee hcalls.blank)
      rw [← hrest.isSome_bracketExtent? hcallee hnew] at hcloses
      obtain ⟨c', hc', -⟩ : ∃ c' ∈ callRanges result (d :: tail), c'.start = piece'.length :=
        (exists_callRange_iff hcallee).2 ⟨piece', gap, rest', by simp [hresult], rfl,
          (hends.callsBehind_iff (by simpa using hstart)).2 hcalls, hcloses⟩
      exact ⟨c', hc'⟩

end

/-! ## What is carried out -/

/-- A call that is renamed, where it stands. -/
theorem exists_site_callRename (hcallee : DottedName callee) {e : Edit}
    (he : e ∈ callRenames text callee newName) : ∃ front covered behind, Site text e front covered behind ∧
      RenamesCall callee newName front covered behind e := by
  obtain ⟨c, hc, rfl⟩ := List.mem_map.1 he
  obtain ⟨front, gap, inner, behind, htext, hcalls, -, rfl⟩ := (mem_callRanges_iff hcallee).1 hc
  have hbetween := between_opening front callee gap inner behind
  rw [← htext] at hbetween
  refine ⟨front, callee ++ (gap ++ '(' :: inner), behind, ⟨by rw [htext]; simp, rfl, rfl⟩,
    ⟨gap, inner, hcalls.blank, rfl, ?_⟩, hcalls.behind⟩
  rw [CallRange.renamed, hbetween]

theorem RenamesCall.covered_ne_nil (hcallee : DottedName callee) {covered behind : List Char} {e : Edit}
    (h : RenamesCall callee newName front covered behind e) : covered ≠ [] := by
  obtain ⟨gap, inner, -, rfl, -⟩ := h.split
  simp [hcallee.ne_nil]

theorem inside_callRenames (hcallee : DottedName callee) :
    ∀ e ∈ callRenames text callee newName, e.start < e.stop ∧ e.stop ≤ text.length := by
  intro e he
  obtain ⟨front, covered, behind, ⟨rfl, hstart, hstop⟩, hrenames⟩ := exists_site_callRename hcallee he
  have := List.length_pos_of_ne_nil (hrenames.covered_ne_nil hcallee)
  simp only [List.length_append]
  omega

theorem revised_callRenames (text : List Char) (hcallee : DottedName callee) (newName : List Char) :
    Revised (RenamesName callee newName) []
      ((carriedOut (callRenames text callee newName)).map fun e => ⟨e.start, e.start + callee.length, newName⟩) text
      (splice text (callRenames text callee newName)) := by
  refine (revised_carriedOut (fun e he => ?_)
    fun e he => exists_site_callRename hcallee (mem_of_mem_carriedOut he)).renamesName
  obtain ⟨front, covered, behind, hsite, -⟩ := exists_site_callRename hcallee he
  exact ⟨front, covered, behind, hsite⟩

/-- No call of the text begins inside another one. -/
def NoCallInside (text callee : List Char) : Prop :=
  ∀ c ∈ callRanges text callee, ∀ d ∈ callRanges text callee, ¬ (c.start < d.start ∧ d.start < c.stop)

instance (text callee : List Char) : Decidable (NoCallInside text callee) :=
  inferInstanceAs (Decidable (∀ c ∈ callRanges text callee, ∀ d ∈ callRanges text callee,
    ¬ (c.start < d.start ∧ d.start < c.stop)))

/-- All calls are renamed when none begins inside another one: that one is renamed as a whole. -/
theorem noCallInside_iff_carriedOut (hcallee : DottedName callee) (newName : List Char) :
    NoCallInside text callee ↔ ∀ c ∈ callRanges text callee,
      ∃ e ∈ carriedOut (callRenames text callee newName), e.start = c.start := by
  have hmem {c : CallRange} (hc : c ∈ callRanges text callee) :
      c.renamed text callee newName ∈ callRenames text callee newName := List.mem_map.2 ⟨c, hc, rfl⟩
  have halone {c : CallRange} (hc : c ∈ callRanges text callee) :
      ∀ e ∈ callRenames text callee newName, e.start = c.start → e = c.renamed text callee newName := by
    intro e he hstart
    obtain ⟨d, hd, rfl⟩ := List.mem_map.1 he
    rw [eq_of_mem_callRanges hcallee hd hc hstart]
  constructor
  · intro hnone c hc
    refine ⟨_, mem_carriedOut_of_boundary (hmem hc) (halone hc) fun e he hlt => ?_, rfl⟩
    obtain ⟨d, hd, rfl⟩ := List.mem_map.1 (mem_of_mem_carriedOut he)
    have := hnone d hd c hc
    simp only [CallRange.renamed] at hlt ⊢
    omega
  · rintro hall c hc d hd ⟨hlt, hinside⟩
    obtain ⟨e, he, hstart⟩ := hall c hc
    obtain ⟨e', he', hstart'⟩ := hall d hd
    have hle := (apart_carriedOut (inside_callRenames hcallee)).stop_le he he' (by omega)
    rw [halone hc e (mem_of_mem_carriedOut he) hstart] at hle
    simp only [CallRange.renamed] at hle
    omega

/-! ## Every call -/

/-- After a rename the old name is called nowhere exactly when all calls were renamed. -/
theorem callRanges_eq_nil_iff (text : List Char) (hcallee : DottedName callee) (hnew : DottedName newName)
    (hne : newName ≠ callee) :
    callRanges (splice text (callRenames text callee newName)) callee = [] ↔ NoCallInside text callee := by
  have hrevised := revised_callRenames text hcallee newName
  rw [noCallInside_iff_carriedOut hcallee newName]
  constructor
  · intro hnone c hc
    by_contra hkept
    obtain ⟨c', hc'⟩ := hrevised.call_old hcallee hnew hc fun e he hstart => by
      obtain ⟨d, hd, rfl⟩ := List.mem_map.1 he
      exact hkept ⟨d, hd, hstart⟩
    rw [hnone] at hc'
    cases hc'
  · intro hall
    refine List.eq_nil_iff_forall_not_mem.2 fun c' hc' => ?_
    obtain ⟨c, hc, hkept⟩ := hrevised.call_new hcallee hnew hne hc'
    obtain ⟨e, he, hstart⟩ := hall c hc
    exact hkept _ (List.mem_map.2 ⟨e, he, rfl⟩) hstart

/-- Renaming changes nothing where nothing is called. -/
theorem splice_callRenames_eq_self_iff (hcallee : DottedName callee) (hnew : DottedName newName)
    (hne : newName ≠ callee) :
    splice text (callRenames text callee newName) = text ↔ callRanges text callee = [] := by
  constructor
  · intro hsame
    have hrevised := revised_callRenames text hcallee newName
    rw [hsame] at hrevised
    rcases hrevised.exists_first with
      ⟨hnone, -⟩ | ⟨e, later, kept, covered, rest, rest', -, hold, hresult, hfits, hlater⟩
    · exact List.map_eq_nil_iff.1 (eq_nil_of_carriedOut_eq_nil (List.map_eq_nil_iff.1 hnone))
    · obtain ⟨gap, more, rfl, hgap⟩ := hfits.opens
      have heq := List.append_cancel_left (hresult.symm.trans hold)
      rw [hfits.old] at heq
      exact (hfits.append_ne hcallee hnew hne hlater hgap more heq).elim
  · intro hnone
    rw [callRenames, hnone, List.map_nil, splice_nil]

/-- Giving every call of a name a new one, in any text: the old name is called nowhere afterwards, and a second run
changes nothing, exactly when no call begins inside another one. A call that does so keeps its name. -/
theorem rewriteCall_rename_complete_iff (hcallee : isMemberExpression callee = true)
    (hnew : isMemberExpression new.toList = true) (hne : new.toList ≠ callee) (index : Option Int) :
    let renamed := rewriteCall text callee (renameEdits index new)
    (callRanges renamed callee = [] ↔ NoCallInside text callee) ∧
      (rewriteCall renamed callee (renameEdits index new) = renamed ↔ NoCallInside text callee) := by
  have hname := dottedName_of_isMemberExpression hcallee
  have hnewName := dottedName_of_isMemberExpression hnew
  have hrewrite (cs : List Char) : rewriteCall cs callee (renameEdits index new) =
      splice cs (callRenames cs callee new.toList) := rewriteCall_renameEdits hname hnewName.ne_nil hne index
  rw [hrewrite text]
  have hnone := callRanges_eq_nil_iff text hname hnewName hne
  refine ⟨hnone, ?_⟩
  rw [hrewrite, splice_callRenames_eq_self_iff hname hnewName hne, hnone]

theorem rewriteCall_rename_complete_iff_sample :
    let edits := renameEdits none "g.h"
    NoCallInside "f (x, 1) + f(a(2))".toList "f".toList ∧
      rewriteCall "f (x, 1) + f(a(2))".toList "f".toList edits = "g.h (x, 1) + g.h(a(2))".toList ∧
      callRanges "g.h (x, 1) + g.h(a(2))".toList "f".toList = [] ∧
      rewriteCall "g.h (x, 1) + g.h(a(2))".toList "f".toList edits = "g.h (x, 1) + g.h(a(2))".toList := by
  have hcallee : isMemberExpression "f".toList = true := by decide
  have hnew : isMemberExpression "g.h".toList = true := by decide
  have hnone : NoCallInside "f (x, 1) + f(a(2))".toList "f".toList := by decide +kernel
  have hrenames : callRenames "f (x, 1) + f(a(2))".toList "f".toList "g.h".toList =
      [⟨0, 8, "g.h (x, 1)".toList⟩, ⟨11, 18, "g.h(a(2))".toList⟩] := by decide +kernel
  have hrenamed : rewriteCall "f (x, 1) + f(a(2))".toList "f".toList (renameEdits none "g.h") =
      "g.h (x, 1) + g.h(a(2))".toList := by
    rw [rewriteCall_renameEdits (dottedName_of_isMemberExpression hcallee) (by decide) (by decide), hrenames,
      splice_of_perm (.refl _) (by decide)]
    decide +kernel
  obtain ⟨hreached, hstable⟩ := @rewriteCall_rename_complete_iff "f (x, 1) + f(a(2))".toList _ _ hcallee hnew
    (by decide) none
  rw [hrenamed] at hreached hstable
  exact ⟨hnone, hrenamed, hreached.2 hnone, hstable.2 hnone⟩

/-- A call among the arguments of a renamed one keeps its name. -/
example : rewriteCall "f(f(1))".toList "f".toList (renameEdits none "g") = "g(f(1))".toList := by
  have hrenames : callRenames "f(f(1))".toList "f".toList "g".toList =
      [⟨0, 7, "g(f(1))".toList⟩, ⟨2, 6, "g(1)".toList⟩] := by decide +kernel
  rw [rewriteCall_renameEdits (dottedName_of_isMemberExpression (by decide)) (by decide) (by decide), hrenames,
    splice_of_perm (.refl _) (by decide)]
  decide +kernel

end Codemod.Source
