import Codemod.Proofs.Source.Rename

/-! Markup that goes by a name: the tags of the name, and the tags of its members, `<name.Member>`. A
renaming takes along the tags of the name; what is left afterwards is what it does not take for one. -/
namespace Codemod.Source
open Text

/-! ## Places that the reader comes to in code -/

/-- The reader comes to a place where no frame is open and `p` holds of what is ahead, and of the
character behind. -/
def Meets (p : Option Char → List Char → Prop) (frames : List Frame) (behind : Option Char)
    (cs : List Char) : Prop :=
  ∃ before rest, cs = before ++ rest ∧ framesAfter frames before rest = some [] ∧
    p (lastOr behind before) rest

/-- Only places that begin with `<`. -/
def AtAngle (p : Option Char → List Char → Prop) : Prop :=
  ∀ ⦃behind cs⦄, p behind cs → ∃ rest, cs = '<' :: rest

variable {p q : Option Char → List Char → Prop} {frames : List Frame} {behind : Option Char}
  {cs rest : List Char}

theorem meets_cons_iff {c : Char} : Meets p frames behind (c :: cs) ↔
    (frames = [] ∧ p behind (c :: cs)) ∨
      ∃ next, step frames c cs = some next ∧ Meets p next (some c) cs := by
  constructor
  · rintro ⟨before, rest, hcs, hframes, hp⟩
    cases before with
    | nil =>
      obtain rfl : c :: cs = rest := hcs
      exact .inl ⟨by simpa [framesAfter] using hframes, hp⟩
    | cons b before =>
      obtain ⟨rfl, rfl⟩ : c = b ∧ cs = before ++ rest := by simpa using hcs
      rw [framesAfter] at hframes
      obtain ⟨next, hstep, hnext⟩ := Option.bind_eq_some_iff.1 hframes
      exact .inr ⟨next, hstep, before, rest, rfl, hnext, by simpa using hp⟩
  · rintro (⟨rfl, hp⟩ | ⟨next, hstep, before, rest, rfl, hframes, hp⟩)
    · exact ⟨[], c :: cs, rfl, rfl, hp⟩
    · refine ⟨c :: before, rest, rfl, ?_, by simpa using hp⟩
      rw [framesAfter, hstep, Option.bind_some, hframes]

theorem not_meets_nil (hp : AtAngle p) : ¬ Meets p frames behind [] := by
  rintro ⟨before, rest, hcs, -, h⟩
  obtain ⟨tail, rfl⟩ := hp h
  simp at hcs

/-- Plain characters without `<` hold no such place. -/
theorem meets_append_iff (hp : AtAngle p) (hplain : Plain cs rest) (hlt : '<' ∉ cs) :
    Meets p [] behind (cs ++ rest) ↔ Meets p [] (lastOr behind cs) rest := by
  induction cs generalizing behind with
  | nil => rfl
  | cons c cs ih =>
    have hno : ¬ p behind (c :: (cs ++ rest)) := fun h => by
      obtain ⟨tail, htail⟩ := hp h
      exact hlt (by simp [(List.cons.inj htail).1])
    have hstep : step [] c (cs ++ rest) = some [] := congrArg some hplain.1
    rw [List.cons_append, meets_cons_iff, hstep, lastOr_cons, ← ih hplain.2 fun h => hlt (by simp [h])]
    simp [hno]

/-- A tag up to the end of its name holds one such place at most, in front. -/
theorem meets_tag_iff (hp : AtAngle p) {lead name : List Char}
    (hlead : lead = ['<'] ∨ lead = ['<', '/']) (hname : TagName name) :
    Meets p [] behind (lead ++ (name ++ rest)) ↔
      p behind (lead ++ (name ++ rest)) ∨ Meets p [] (lastOr behind (lead ++ name)) rest := by
  have hplain := plain_tag hlead hname rest
  obtain ⟨body, hbody, hlt⟩ := exists_tag_body hlead hname
  rw [← List.append_assoc]
  rw [hbody] at hplain ⊢
  have hstep : step [] '<' (body ++ rest) = some [] := congrArg some hplain.1
  rw [List.cons_append, meets_cons_iff, hstep, lastOr_cons, ← meets_append_iff hp hplain.2 hlt]
  simp

/-- A place in code is one outside literals and comments. -/
theorem meets_iff {text : List Char} (hp : AtAngle p) : Meets p [] none text ↔
    ∃ i, ¬ Covered text i ∧ p (text.take i).getLast? (text.drop i) := by
  have hlive {before rest : List Char} (h : p (lastOr none before) rest) :
      ¬ Covered (before ++ rest) before.length ↔ framesAfter [] before rest = some [] := by
    obtain ⟨tail, rfl⟩ := hp h
    exact not_covered_iff_framesAfter (by decide) rfl
  constructor
  · rintro ⟨before, rest, rfl, hframes, h⟩
    refine ⟨before.length, (hlive h).2 hframes, ?_⟩
    simpa [lastOr] using h
  · rintro ⟨i, hcovered, h⟩
    have hi : i < text.length := by
      obtain ⟨tail, htail⟩ := hp h
      have hlen := congrArg List.length htail
      simp only [List.length_drop, List.length_cons] at hlen
      omega
    have hlen : (text.take i).length = i := by simp; omega
    have h' : p (lastOr none (text.take i)) (text.drop i) := by simpa [lastOr] using h
    refine ⟨text.take i, text.drop i, by simp, (hlive h').1 ?_, h'⟩
    rwa [List.take_append_drop, hlen]

/-! ## Uses of a name -/

/-- What may stand behind the first component of the name of a tag: a blank, the end of the tag, or a
dot. -/
def endsComponent (c : Char) : Bool := isBlank c || c == '/' || c == '>' || c == '.'

/-- A tag stands here, opening or closing, whose name is `name` or begins with `name` and a dot. -/
def usesName (name : List Char) (behind : Option Char) (cs : List Char) : Bool :=
  (!behind.any endsOperand && (after? ('<' :: name) cs).any (·.head?.any endsComponent)) ||
    (after? ('<' :: '/' :: name) cs).any (·.head?.any endsComponent)

/-- Markup uses the name at the offset, outside literals and comments. -/
def LiveUse (name text : List Char) (i : Nat) : Prop :=
  ¬ Covered text i ∧ usesName name (text.take i).getLast? (text.drop i) = true

instance (name text : List Char) (i : Nat) : Decidable (LiveUse name text i) :=
  inferInstanceAs (Decidable (_ ∧ _))

/-- The lead and the name, and what may stand behind them. -/
theorem usesName_iff {name : List Char} : usesName name behind cs = true ↔
    ∃ lead, (lead = ['<'] ∧ behind.any endsOperand = false ∨ lead = ['<', '/']) ∧
      ∃ c rest, cs = lead ++ (name ++ c :: rest) ∧ endsComponent c = true := by
  have hany (piece : List Char) : (after? piece cs).any (·.head?.any endsComponent) = true ↔
      ∃ c rest, cs = piece ++ c :: rest ∧ endsComponent c = true := by
    simp only [Option.any_eq_true]
    constructor
    · rintro ⟨tail, htail, c, hc, hends⟩
      obtain ⟨rest, rfl⟩ := List.head?_eq_some_iff.1 hc
      exact ⟨c, rest, after?_eq_some_iff.1 htail, hends⟩
    · rintro ⟨c, rest, hcs, hends⟩
      exact ⟨c :: rest, after?_eq_some_iff.2 hcs, c, rfl, hends⟩
  rw [usesName, Bool.or_eq_true, Bool.and_eq_true, hany, hany, Bool.not_eq_true']
  constructor
  · rintro (⟨hbehind, h⟩ | h)
    · exact ⟨['<'], .inl ⟨rfl, hbehind⟩, h⟩
    · exact ⟨['<', '/'], .inr rfl, h⟩
  · rintro ⟨_, ⟨rfl, hbehind⟩ | rfl, h⟩
    · exact .inl ⟨hbehind, h⟩
    · exact .inr h

theorem atAngle_usesName (name : List Char) : AtAngle fun b cs => usesName name b cs = true := by
  intro behind cs h
  obtain ⟨lead, ⟨rfl, -⟩ | rfl, c, rest, rfl, -⟩ := usesName_iff.1 h <;> exact ⟨_, rfl⟩

theorem AtAngle.and (hp : AtAngle p) : AtAngle fun b cs => p b cs ∧ q b cs := fun _ _ h => hp h.1

/-- Whether a name is used here is settled before the next tag can begin. -/
theorem usesName_stem {name : List Char} (hname : TagName name) (behind : Option Char)
    (cs : List Char) : usesName name behind ('<' :: stem cs) = usesName name behind ('<' :: cs) := by
  have hany (piece : List Char) (h : '<' ∉ piece) :
      (after? ('<' :: piece) ('<' :: stem cs)).any (·.head?.any endsComponent) =
        (after? ('<' :: piece) ('<' :: cs)).any (·.head?.any endsComponent) := by
    rw [after?, after?, if_pos rfl, if_pos rfl, after?_stem h, Option.any_map]
    simp only [head?_stem]
  have hslash : '<' ∉ '/' :: name := by simp [hname.not_mem]
  rw [usesName, usesName, hany name hname.not_mem, hany ('/' :: name) hslash]

/-! ## What a renaming leaves -/

/-- A word of one component, such as a name that is bound in a file. -/
structure Identifier (name : List Char) : Prop where
  ne_nil : name ≠ []
  chars : ∀ c ∈ name, isIdentifier c = true

theorem Identifier.tagName {name : List Char} (h : Identifier name) : TagName name where
  ne_nil := h.ne_nil
  chars := fun c hc => by simp [isAttributeChar, h.chars c hc]

theorem isIdentifier_of_endsComponent {c : Char} (h : endsComponent c = true) :
    isIdentifier c = false := by
  simp only [endsComponent, Bool.or_eq_true, beq_iff_eq] at h
  rcases h with ((h | rfl) | rfl) | rfl
  · have hchar := isAttributeChar_of_isBlank h
    simp only [isAttributeChar, Bool.or_eq_false_iff] at hchar
    exact hchar.1.1.1
  · decide
  · decide
  · decide

/-- A name of one component in front of its end begins with no other name and its end. -/
theorem component_unique {old new cs rest : List Char} {c : Char} (hold : TagName old)
    (hnew : Identifier new) (hcs : EndsName cs) (hc : endsComponent c = true)
    (h : new ++ cs = old ++ c :: rest) : new = old := by
  obtain ⟨more, hnew', hrest⟩ | ⟨more, rfl, hrest⟩ := List.append_eq_append_iff.1 h
  · -- the old name goes on behind the new one, where the new one ends
    cases more with
    | nil => simpa using hnew'.symm
    | cons d more =>
      have hd : isAttributeChar d = true := hold.chars d (by simp [hnew'])
      rw [hcs.head?_not_isAttributeChar d (by simp [hrest])] at hd
      cases hd
  · cases more with
    | nil => simp
    | cons d more =>
      obtain rfl : c = d := (List.cons.inj hrest).1
      have hd : isIdentifier c = true := hnew.chars c (by simp)
      rw [isIdentifier_of_endsComponent hc] at hd
      cases hd

/-- A tag written anew does not use the old name. -/
theorem usesName_renamed {old new lead : List Char} (hold : TagName old) (hnew : Identifier new)
    (hne : old ≠ new) (hlead : lead = ['<'] ∨ lead = ['<', '/']) (hcs : EndsName cs) :
    usesName old behind (lead ++ (new ++ cs)) = false := by
  rw [Bool.eq_false_iff]
  intro huse
  obtain ⟨other, hother, c, rest, heq, hc⟩ := usesName_iff.1 huse
  replace hother : other = ['<'] ∨ other = ['<', '/'] := hother.imp And.left id
  have hsame (h : new ++ cs = old ++ c :: rest) : False :=
    hne (component_unique hold hnew hcs hc h).symm
  rcases hlead with rfl | rfl <;> rcases hother with rfl | rfl <;>
    simp only [List.cons_append, List.nil_append, List.cons.injEq, true_and] at heq
  · exact hsame heq
  · exact hnew.tagName.append_ne_slash _ _ heq
  · exact hold.append_ne_slash _ _ heq.symm
  · exact hsame heq

/-- The renamed text uses the old name where the text does so without having a tag of it. -/
theorem Renamed.meets_use_iff {old new : List Char} (hold : TagName old) (hnew : Identifier new)
    (hne : old ≠ new) {cs' : List Char} (h : Renamed old new frames behind cs cs')
    {behind' : Option Char} (hb : behind' = behind ∨ cs.head? ≠ some '<') :
    Meets (fun b ds => usesName old b ds = true) frames behind' cs' ↔
      Meets (fun b ds => usesName old b ds = true ∧ tagLead? old b ds = none) frames behind cs := by
  have huse := atAngle_usesName old
  have hloose : AtAngle fun b ds => usesName old b ds = true ∧ tagLead? old b ds = none := huse.and
  induction h generalizing behind' with
  | nil => exact iff_of_false (not_meets_nil huse) (not_meets_nil hloose)
  | @stuck frames behind c cs hstep =>
    have hframes : frames ≠ [] := by
      rintro rfl
      simp [step] at hstep
    simp [meets_cons_iff, hstep, hframes]
  | @keep frames next behind c cs cs' hstep hno hrest ih =>
    have hstep' : step frames c cs' = some next :=
      (hrest.step_eq hold hnew.tagName frames c).trans hstep
    have hhere (hframes : frames = []) : usesName old behind' (c :: cs') = true ↔
        usesName old behind (c :: cs) = true ∧ tagLead? old behind (c :: cs) = none := by
      rw [and_iff_left (hno hframes)]
      by_cases hc : c = '<'
      · subst hc
        obtain rfl : behind' = behind := hb.resolve_right (by simp)
        rw [← usesName_stem hold, hrest.stem_eq, usesName_stem hold]
      · refine iff_of_false (fun h => ?_) fun h => ?_
        · obtain ⟨tail, htail⟩ := huse h
          exact hc (List.cons.inj htail).1
        · obtain ⟨tail, htail⟩ := huse h
          exact hc (List.cons.inj htail).1
    rw [meets_cons_iff, meets_cons_iff, hstep, hstep']
    refine or_congr (and_congr_right hhere) ?_
    simp only [Option.some_inj, exists_eq_left']
    exact ih (.inl rfl)
  | @tag behind lead cs cs' hlead hrest ih =>
    obtain ⟨hl, rest, heq, hend⟩ := tagLead?_eq_some hlead
    obtain rfl : cs = rest := by simpa using heq
    have hend' : EndsName cs' := hend.of_head (hrest.sameAhead hold hnew.tagName).head
    have hgone : usesName old behind' (lead ++ (new ++ cs')) = false :=
      usesName_renamed hold hnew hne hl hend'
    rw [meets_tag_iff huse hl hnew.tagName, meets_tag_iff hloose hl hold, hgone, hlead]
    simpa using ih (.inr hend.head?_ne)

/-- After a renaming, markup uses the old name when it did so before other than in a tag of it. -/
theorem exists_liveUse_renameElement_iff {text old new : List Char} (hold : TagName old)
    (hnew : Identifier new) (hne : old ≠ new) :
    (∃ i, LiveUse old (renameElement text old new) i) ↔
      ∃ i, LiveUse old text i ∧ ¬ LiveTag old text i := by
  have hrenamed : Renamed old new [] none text (renameElement text old new) :=
    renamed_renameElement hold hnew.tagName hne
  have hmeets := hrenamed.meets_use_iff hold hnew hne (.inl rfl)
  rw [meets_iff (atAngle_usesName old), meets_iff (atAngle_usesName old).and] at hmeets
  refine hmeets.trans (exists_congr fun i => ?_)
  unfold LiveUse LiveTag
  rw [Option.isSome_iff_ne_none]
  tauto

end Codemod.Source
