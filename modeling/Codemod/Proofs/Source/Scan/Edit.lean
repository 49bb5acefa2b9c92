import Codemod.Proofs.Source.Scan.Region
import Codemod.Proofs.Source.Scan.Tag
import Codemod.Source.Element
import Codemod.Proofs.Source.CallEdits
import Codemod.Proofs.Source.Splitter
import Codemod.Proofs.Source.Binding
import Codemod.Source.Splice

/-! The edits of a source with each look-up in sight, and what becomes of all scans: they return on every text,
and each edit returns what it makes of the text. -/
namespace Codemod.Source.Scan
open Text

/-! # Markup

The ranges are searched for every place that is found, tags are read by offsets, and the blanks in front of an
attribute are passed backwards. -/

/-! ## Live places -/

/-- What `read` makes of the elements of a list, as far as it makes anything. -/
def collect (read : α → Scan (Option β)) (as : List α) : Scan (List β) :=
  (·.filterMap id) <$> as.mapM read

theorem mapM_eq {read : α → Scan β} {f : α → β} {as : List α} (h : ∀ a ∈ as, read a = pure (f a)) :
    as.mapM read = pure (as.map f) := by
  induction as with
  | nil => rfl
  | cons a as ih =>
    rw [List.mapM_cons, h a (by simp), pure_bind, ih fun b hb => h b (by simp [hb]), pure_bind]
    rfl

theorem collect_eq {read : α → Scan (Option β)} {f : α → Option β} {as : List α}
    (h : ∀ a ∈ as, read a = pure (f a)) : collect read as = pure (as.filterMap f) := by
  rw [collect, mapM_eq h, map_pure, List.filterMap_map]
  rfl

/-- What is made of the places that begin outside the ranges `inert`. -/
def collectLive (inert : List (Nat × Nat)) (places : List (Found α)) (read : Found α → Scan (Option β)) :
    Scan (List β) :=
  collect (fun f => do if ← isInertAt inert f.start then return none else read f) places

theorem collectLive_eq (text : List Char) (r : Recogniser α) {read : Found α → Scan (Option β)}
    {f : Found α → Option β} (h : ∀ a, read a = pure (f a)) :
    collectLive (inertRanges text) (found r text) read = pure ((liveFound r text).filterMap f) := by
  rw [collectLive, liveFound, List.filterMap_filter]
  refine collect_eq fun a ha => ?_
  have hlen : a.start < text.length := by simpa using (start_mem_foundFrom ha).2
  rw [isInertAt_inertRanges, pure_bind, h]
  by_cases hcovered : Covered text a.start
  · have hmark : ¬ (marks text)[a.start]? = some .live := fun hmark => (not_covered_iff hlen).2 hmark hcovered
    simp [hcovered, hmark]
  · have hmark := (not_covered_iff hlen).1 hcovered
    simp [hcovered, hmark]

/-! ## Elements -/

def renameElement (text old new : List Char) : Scan (List Char) := do
  if old.isEmpty || new.isEmpty || old == new then return text
  else
    let inert ← regions text
    let rename (r : Recogniser Unit) (lead : List Char) : Scan (List Edit) :=
      collectLive inert (found r text) fun f => return some ⟨f.start, f.stop, lead ++ new⟩
    let opened ← rename (openingTag old) ['<']
    let closed ← rename (closingTag old) ['<', '/']
    return splice text (opened ++ closed)

theorem renameElement_eq (text old new : List Char) :
    renameElement text old new = pure (Source.renameElement text old new) := by
  unfold renameElement Source.renameElement
  split
  · rfl
  · rw [regions_eq, pure_bind]
    dsimp only
    rw [collectLive_eq text _ fun _ => rfl, pure_bind, collectLive_eq text _ fun _ => rfl, pure_bind]
    simp only [liveFound, List.filterMap_filter]

/-- The opening tags of the elements called `name`, outside literals and comments. -/
def openingTags (text name : List Char) : Scan (List OpeningTag) := do
  let inert ← regions text
  collectLive inert (found (openingTag name) text) fun f => tagAt text name f.start

theorem openingTags_eq (text name : List Char) :
    openingTags text name = pure (Source.openingTags text name) := by
  rw [openingTags, regions_eq, pure_bind]
  exact collectLive_eq text _ fun f => tagAt_eq text name f.start

theorem between_append {low middle : Nat} (h : low ≤ middle) (n : Nat) (text : List Char) :
    between low (middle + n) text = between low middle text ++ (text.drop middle).take n := by
  rw [between, between, show middle + n - low = middle - low + n by omega, List.take_add, List.drop_drop,
    Nat.add_sub_cancel' h]

/-- Where the blanks in front of `start` begin, not before `low`. -/
def leadFrom (text : List Char) (low : Nat) : (start : Nat) → Scan Nat
  | 0 => return 0
  | k + 1 => do
    if low < k + 1 then
      let c ← lookUp text[k]?
      if isBlank c then leadFrom text low k else return k + 1
    else return k + 1

theorem leadFrom_eq {text : List Char} {low start : Nat} (h : start ≤ text.length) :
    leadFrom text low start =
      pure (start - ((between low start text).reverse.takeWhile isBlank).length) := by
  induction start with
  | zero => rw [leadFrom, Nat.zero_sub]
  | succ k ih =>
    rw [leadFrom]
    by_cases hlow : low < k + 1
    · have hlast : between low (k + 1) text = between low k text ++ [text[k]] := by
        rw [between_append (by omega) 1, List.drop_eq_getElem_cons h]
        rfl
      rw [if_pos hlow, List.getElem?_eq_getElem h, lookUp_some, pure_bind, hlast, List.reverse_append,
        List.reverse_singleton, List.singleton_append, List.takeWhile_cons]
      by_cases hblank : isBlank text[k] = true
      · rw [if_pos hblank, if_pos hblank, ih (by omega), List.length_cons, Nat.add_sub_add_right]
      · rw [if_neg hblank, if_neg hblank]
        rfl
    · have hnone : between low (k + 1) text = [] := by
        rw [between, Nat.sub_eq_zero_of_le (by omega), List.take_zero]
      rw [if_neg hlow, hnone]
      rfl

/-- The edits that take the attribute `attr` out of one tag. -/
def removals (text attr : List Char) (t : OpeningTag) : Scan (List Edit) :=
  (t.attributes.filter (·.name == attr)).mapM fun a => do
    let start ← leadFrom text t.nameEnd a.start
    return ⟨start, a.stop, []⟩

theorem removals_eq {text attr : List Char} {t : OpeningTag} (h : t.InOrder text) :
    removals text attr t = pure ((t.attributes.filter (·.name == attr)).map fun a =>
      ⟨(attributeRange text t a).1, (attributeRange text t a).2, []⟩) := by
  refine mapM_eq fun a ha => ?_
  have hinside := h.inside a (List.mem_of_mem_filter ha)
  have hwithin := h.within
  rw [leadFrom_eq (by omega), pure_bind]
  rfl

def removeAttribute (text tag attr : List Char) : Scan (List Char) := do
  if tag.isEmpty || attr.isEmpty then return text
  else
    let tags ← openingTags text tag
    let edits ← tags.mapM (removals text attr)
    return splice text edits.flatten

theorem removeAttribute_eq (text tag attr : List Char) :
    removeAttribute text tag attr = pure (Source.removeAttribute text tag attr) := by
  unfold removeAttribute Source.removeAttribute
  split
  · rfl
  · have hinOrder : ∀ t ∈ Source.openingTags text tag, t.InOrder text := by
      intro t ht
      obtain ⟨f, -, hread⟩ := List.mem_filterMap.1 ht
      exact inOrder_of_openingTagAt? hread
    rw [openingTags_eq, pure_bind, mapM_eq fun t ht => removals_eq (hinOrder t ht), pure_bind]
    rfl

/-- The elements are converted as their tags are read. -/
def convertAttribute (text tag old new : List Char) : Scan (List Char) := do
  if tag.isEmpty || old.isEmpty || new.isEmpty then return text
  else
    let tags ← openingTags text tag
    return splice text <| tags.flatMap fun t =>
      if old != new && t.attributes.any (·.name == new) then []
      else (t.attributes.filter (·.name == old)).filterMap fun a =>
        (namedComponent? a).map fun component =>
          ⟨a.start, a.stop, new ++ "=\x7b<".toList ++ component ++ " />\x7d".toList⟩

theorem convertAttribute_eq (text tag old new : List Char) :
    convertAttribute text tag old new = pure (Source.convertAttribute text tag old new) := by
  unfold convertAttribute Source.convertAttribute
  split
  · rfl
  · rw [openingTags_eq, pure_bind]

end Codemod.Source.Scan

namespace Codemod.Source

/-! # Calls

The loop that cuts an argument list goes by offsets, an edit of one argument takes it from the list and puts it
back, and the parenthesis of a call is looked up where the name ends. -/

/-- The splitter keeps a literal as it is. -/
theorem argumentPieces_literal {frames : List Frame} (h : frames ≠ []) (depth : Int) (cs : List Char) :
    argumentPieces depth frames cs =
      (argumentPieces depth [] (cs.drop ((extent? frames cs).getD cs.length))).modifyHead
        (cs.take ((extent? frames cs).getD cs.length) ++ ·) := by
  induction cs generalizing frames with
  | nil => rfl
  | cons c cs ih =>
    rw [extent?]
    cases hstep : step frames c cs with
    | none =>
      rw [argumentPieces_cons, if_neg (by simpa using h), hstep]
      simp [argumentPieces]
    | some next =>
      rw [argumentPieces_step h hstep]
      cases next with
      | nil => rfl
      | cons frame next =>
        dsimp only
        rw [ih (List.cons_ne_nil _ _), List.modifyHead_modifyHead]
        cases extent? (frame :: next) cs <;> rfl

/-- A literal that a quote opens goes in front of the next piece as a whole. -/
theorem argumentPieces_quoted {c : Char} {cs : List Char} (h : quoteFrames c cs ≠ []) (depth : Int) :
    argumentPieces depth [] (c :: cs) =
      (argumentPieces depth [] (cs.drop ((extent? (quoteFrames c cs) cs).getD cs.length))).modifyHead
        (c :: cs.take ((extent? (quoteFrames c cs) cs).getD cs.length) ++ ·) := by
  rw [argumentPieces_quote h, argumentPieces_literal h, List.modifyHead_modifyHead]
  rfl

namespace Scan
open Text

/-! ## Cutting an argument list -/

/-- The pieces from offset `pos` on, behind those found before; the present one begins at `start`, and `depth`
counts the brackets that are open. -/
def piecesFrom (inner : List Char) (pieces : List (List Char)) (depth : Int) (start pos : Nat) :
    Scan (List (List Char)) := do
  if pos < inner.length then
    let c ← lookUp inner[pos]?
    if isLiteralMark c then
      let stop ← literalEnd inner pos
      advance pos stop fun _ => piecesFrom inner pieces depth start stop
    else
      advance pos (pos + 1) fun _ =>
        if (closer? c).isSome then piecesFrom inner pieces (depth + 1) start (pos + 1)
        else if isCloser c then piecesFrom inner pieces (depth - 1) start (pos + 1)
        else if c = ',' && depth = 0 then
          piecesFrom inner (pieces ++ [between start pos inner]) depth (pos + 1) (pos + 1)
        else piecesFrom inner pieces depth start (pos + 1)
  else return pieces ++ [inner.drop start]
termination_by inner.length - pos

def splitArguments (inner : List Char) : Scan (List (List Char)) := do
  let pieces ← piecesFrom inner [] 0 0 0
  return (pieces.map trim).filter (!·.isEmpty)

/-- A piece that has just begun is empty. -/
theorem modifyHead_between_self (inner : List Char) (pos : Nat) (pieces : List (List Char)) :
    pieces.modifyHead (between pos pos inner ++ ·) = pieces := by
  cases pieces <;> simp [between]

theorem piecesFrom_eq (inner : List Char) (pieces : List (List Char)) (depth : Int) {start pos : Nat}
    (h : start ≤ pos) : piecesFrom inner pieces depth start pos =
      pure (pieces ++ (argumentPieces depth [] (inner.drop pos)).modifyHead (between start pos inner ++ ·)) := by
  induction hn : inner.length - pos using Nat.strong_induction_on generalizing pieces depth start pos with
  | _ n ih =>
    cases hdrop : inner.drop pos with
    | nil =>
      have hlen := List.drop_eq_nil_iff.1 hdrop
      rw [piecesFrom, if_neg (Nat.not_lt.2 hlen), argumentPieces, between,
        List.take_of_length_le (by rw [List.length_drop]; omega)]
      simp
    | cons c rest =>
      have hlen := lt_length_of_drop hdrop
      have later (pieces : List (List Char)) (depth : Int) {start p : Nat} (hp : pos < p) (hstart : start ≤ p) :=
        ih (inner.length - p) (by omega) pieces depth hstart rfl
      -- what is kept up to an offset behind `pos` goes in front of the next piece
      have keep (depth : Int) (n : Nat) : piecesFrom inner pieces depth start (pos + 1 + n) =
          pure (pieces ++ ((argumentPieces depth [] (rest.drop n)).modifyHead (c :: rest.take n ++ ·)).modifyHead
            (between start pos inner ++ ·)) := by
        rw [later pieces depth (by omega) (by omega), drop_add_of_drop hdrop, List.modifyHead_modifyHead,
          Nat.add_assoc, between_append h, hdrop, Nat.add_comm 1, List.take_succ_cons]
        congr 3
        funext piece
        simp
      rw [piecesFrom, read_of_drop hdrop]
      by_cases hc : isLiteralMark c = true
      · have hstop := lt_literalStop hdrop
        rw [if_pos hc, literalEnd_of_reads hdrop hc (readsFrom inner _), pure_bind, advance_of_lt hstop.1]
        by_cases hframes : quoteFrames c rest = []
        · have hplain : isBracket c = false ∧ c ≠ ',' := by
            rcases eq_of_isLiteralMark hc with rfl | rfl | rfl <;> decide
          rw [literalStop_of_drop hdrop hframes, argumentPieces_plain hframes hplain.1, if_neg (by simp [hplain.2])]
          exact keep depth 0
        · rw [literalStop_of_frames hdrop hframes, getD_extent? hdrop, argumentPieces_quoted hframes]
          exact keep depth _
      · have hframes : quoteFrames c rest = [] := by
          obtain ⟨hquote, htick⟩ : isQuote c = false ∧ c ≠ '`' := by simpa [isLiteralMark] using hc
          simp [quoteFrames, hquote, htick]
        rw [if_neg hc, advance_of_lt (by omega)]
        cases hopen : closer? c with
        | some closing =>
          rw [Option.isSome_some, if_pos rfl, argumentPieces_open hopen]
          exact keep (depth + 1) 0
        | none =>
          rw [if_neg (by simp)]
          by_cases hcloser : isCloser c = true
          · rw [if_pos hcloser, argumentPieces_close hcloser]
            exact keep (depth - 1) 0
          · have hbracket : isBracket c = false := by simp [isBracket, hopen, hcloser]
            rw [if_neg hcloser, argumentPieces_plain hframes hbracket]
            by_cases hcomma : (c = ',' && depth = 0) = true
            · rw [if_pos hcomma, if_pos hcomma, later _ depth (by omega) (Nat.le_refl _), drop_succ_of_drop hdrop]
              simp [modifyHead_between_self]
            · rw [if_neg hcomma, if_neg hcomma]
              exact keep depth 0

theorem splitArguments_eq (inner : List Char) : splitArguments inner = pure (Source.splitArguments inner) := by
  rw [splitArguments, piecesFrom_eq inner [] 0 (Nat.le_refl 0), pure_bind, modifyHead_between_self]
  rfl

/-! ## Editing a call -/

/-- Puts an argument in the place of another, which has to be there. -/
def assign (args : List (List Char)) (i : Nat) (arg : List Char) : Scan (List (List Char)) :=
  if i < args.length then pure (args.set i arg) else throw .missing

def applyEdit (call : Call) (e : CallEdit) : Scan Call := do
  let args := call.arguments
  match e.action with
  | .rename | .insertArgument => return e.apply call
  | .dropArgument =>
    match e.index with
    | some (.ofNat i) =>
      if i < args.length then return { call with arguments := args.take i ++ args.drop (i + 1) }
      else return call
    | _ => return call
  | .wrapArgument =>
    match e.index, e.value.map String.toList with
    | some (.ofNat i), some (c :: cs) =>
      if i < args.length then
        let arg ← lookUp args[i]?
        let wrapped ← assign args i (c :: cs ++ '(' :: arg ++ [')'])
        return { call with arguments := wrapped }
      else return call
    | _, _ => return call

theorem applyEdit_eq (call : Call) (e : CallEdit) : applyEdit call e = pure (e.apply call) := by
  obtain ⟨action, index, value⟩ := e
  cases action with
  | rename => rfl
  | insertArgument => rfl
  | dropArgument =>
    match index with
    | none | some (.negSucc _) => rfl
    | some (.ofNat i) =>
      change (if i < call.arguments.length then _ else _) = pure { call with arguments := call.arguments.eraseIdx i }
      by_cases hi : i < call.arguments.length
      · rw [if_pos hi, List.eraseIdx_eq_take_drop_succ]
      · rw [if_neg hi, List.eraseIdx_of_length_le (by omega)]
  | wrapArgument =>
    unfold applyEdit CallEdit.apply
    dsimp only
    generalize value.map String.toList = text
    match index, text with
    | none, _ | some (.negSucc _), _ | some (.ofNat _), none | some (.ofNat _), some [] => rfl
    | some (.ofNat i), some (c :: cs) =>
      dsimp only
      by_cases hi : i < call.arguments.length
      · rw [if_pos hi, List.getElem?_eq_getElem hi, lookUp_some, pure_bind, assign, if_pos hi, pure_bind,
          List.modify_eq_set_getElem?]
        simp [hi]
      · rw [if_neg hi, List.modify_eq_self (by omega)]

theorem foldlM_applyEdit (call : Call) (edits : List CallEdit) :
    edits.foldlM applyEdit call = pure (edits.foldl CallEdit.apply call) := by
  induction edits generalizing call with
  | nil => rfl
  | cons e edits ih => rw [List.foldlM_cons, applyEdit_eq, pure_bind, ih, List.foldl_cons]

/-- The replacement of one call, when the edits change it. -/
def editCallAt (text callee : List Char) (edits : List CallEdit) (f : Found (List Char)) : Scan (Option Edit) :=
  if declaresFunction (text.take f.start) then return none
  else do
    let opening := f.stop - 1
    match ← closing text opening with
    | none => return none
    | some close =>
      let inner := between (opening + 1) close text
      let call : Call := ⟨callee, ← splitArguments inner⟩
      let edited ← edits.foldlM applyEdit call
      if edited = call then return none
      else
        let args := if edited.arguments = call.arguments then inner
          else joinWith ", ".toList edited.arguments
        return some ⟨f.start, close + 1, edited.name ++ f.value ++ '(' :: args ++ [')']⟩

theorem editCallAt_eq {text callee : List Char} (edits : List CallEdit) {f : Found (List Char)}
    (h : f ∈ found (calledName callee) text) :
    editCallAt text callee edits f = pure (editCallAt? text callee edits f) := by
  obtain ⟨front, rest, htext, -, -, hstart, hlen⟩ := exists_front_of_mem_found h
  -- the parenthesis is the last character of what has been found
  have hopening : text.drop (f.stop - 1) = '(' :: rest := by
    rw [htext, ← List.append_assoc callee, ← List.append_assoc]
    refine List.drop_left' ?_
    rw [Found.stop, hlen, hstart, List.length_append, List.length_append]
    omega
  have hstop : f.stop - 1 + 1 = f.stop := by
    rw [Found.stop, hlen]
    omega
  have hrest : text.drop f.stop = rest := by rw [← hstop, drop_succ_of_drop hopening]
  unfold editCallAt editCallAt?
  split
  · rfl
  · dsimp only
    rw [closing_of_reads hopening rfl (readsFrom text _), pure_bind, hrest]
    cases hextent : bracketExtent? '(' rest with
    | none => rfl
    | some n =>
      have hpos := (bracketExtent?_le hextent).1
      have hinner : between (f.stop - 1 + 1) (f.stop - 1 + n) text = rest.take (n - 1) := by
        rw [between, hstop, hrest]
        congr 1
        omega
      rw [Option.map_some]
      dsimp only
      rw [hinner, splitArguments_eq, pure_bind, foldlM_applyEdit, pure_bind]
      split
      · rfl
      · rw [show f.stop - 1 + n + 1 = f.stop + n by omega]

def rewriteCall (text callee : List Char) (edits : List CallEdit) : Scan (List Char) := do
  if callee.isEmpty || edits.isEmpty then return text
  else
    let replacements ← collect (editCallAt text callee edits) (found (calledName callee) text)
    return splice text replacements

theorem rewriteCall_eq (text callee : List Char) (edits : List CallEdit) :
    rewriteCall text callee edits = pure (Source.rewriteCall text callee edits) := by
  unfold rewriteCall Source.rewriteCall
  split
  · rfl
  · rw [collect_eq fun f hf => editCallAt_eq edits hf, pure_bind]

end Scan
end Codemod.Source

namespace Codemod.Source.Scan
open Text

/-! # Imports and the whole

The edits of imports look up the item that is renamed and the last declaration of a text. -/

/-! ## Imports -/

/-- The item of a declaration that imports `name`, with its place. -/
def importedIn (module name : List Char) (f : Found ImportDecl) :
    Scan (Option (Found ImportDecl × Nat × Specifier)) := do
  if f.value.module != module then return none
  else
    let items := f.value.named.getD []
    match items.findIdx? (·.imported == name) with
    | none => return none
    | some i =>
      let s ← lookUp items[i]?
      return some (f, i, s)

def findImported (text module name : List Char) : Scan (Option (Found ImportDecl × Nat × Specifier)) :=
  (imports text).findSomeM? (importedIn module name)

def importedAs (text module name : List Char) : Scan (Option (List Char)) := do
  let found ← findImported text module name
  return found.map (·.2.2.bound)

def addItem (text module : List Char) (origin : Found ImportDecl) (moved : Specifier) : Scan (List Edit) := do
  let all := imports text
  match all.find? fun f => f.value.module == module && f.start != origin.start && f.value.takesNames with
  | some f =>
    let items := f.value.named.getD []
    if items.any (·.bound == moved.bound) then return []
    else
      let braces := if f.value.braces.isEmpty then "\x7b \x7d".toList else f.value.braces
      return [⟨f.start, f.stop, { f.value with braces }.render (items ++ [moved])⟩]
  | none =>
    let last ← lookUp all.getLast?
    let at' := lineEnd text last.stop
    let lead := if (text.take at').getLast? == some '\n' then [] else ['\n']
    return [⟨at', at', lead ++ "import \x7b ".toList ++ moved.render ++ " \x7d from ".toList ++
      origin.value.quote :: module ++ origin.value.quote ::
      (if origin.value.semicolon then [';'] else []) ++ ['\n']⟩]

def moveImport (text source old target new : List Char) : Scan (List Char) := do
  match ← findImported text source old with
  | none => return text
  | some (f, i, s) =>
    let moved : Specifier := ⟨new, if s.bound = s.imported then new else s.bound, s.typeOnly⟩
    if target = source then
      if new = old then return text else return splice text [renameInPlace f i moved]
    else
      let added ← addItem text target f moved
      return splice text (withoutItem text f i :: added)

def editImport (text source : List Char) (named : Option (List Char)) (target : List Char)
    (newName : Option (List Char)) : Scan (List Char) :=
  let target := (given? (some target)).getD source
  match given? named with
  | none => return repointImports text source target
  | some old => moveImport text source old target ((given? newName).getD old)

theorem importedIn_eq (module name : List Char) (f : Found ImportDecl) : importedIn module name f =
    pure (if f.value.module != module then none
      else ((f.value.named.getD []).findIdx? (·.imported == name)).bind fun i =>
        ((f.value.named.getD [])[i]?).map fun s => (f, i, s)) := by
  unfold importedIn
  split
  · rfl
  · dsimp only
    cases hi : (f.value.named.getD []).findIdx? (·.imported == name) with
    | none => rfl
    | some i =>
      obtain ⟨hlen, -⟩ := List.findIdx?_eq_some_iff_getElem.1 hi
      dsimp only
      rw [Option.bind_some, List.getElem?_eq_getElem hlen, lookUp_some, pure_bind]
      rfl

theorem findImported_eq (text module name : List Char) :
    findImported text module name = pure (findImported? text module name) := by
  rw [findImported, funext (importedIn_eq module name)]
  exact List.findSomeM?_pure

theorem importedAs_eq (text module name : List Char) :
    importedAs text module name = pure (importedAs? text module name) := by
  rw [importedAs, findImported_eq, pure_bind]
  rfl

/-- There is a last declaration, since the name has been found in one. -/
theorem addItem_eq {text : List Char} {origin : Found ImportDecl} (h : origin ∈ imports text)
    (module : List Char) (moved : Specifier) :
    addItem text module origin moved = pure (Source.addItem text module origin moved) := by
  obtain ⟨last, hlast⟩ : ∃ last, (imports text).getLast? = some last :=
    ⟨_, List.getLast?_eq_some_getLast (List.ne_nil_of_mem h)⟩
  unfold addItem Source.addItem
  dsimp only
  generalize ((imports text).find? fun f =>
    f.value.module == module && f.start != origin.start && f.value.takesNames) = place
  cases place with
  | some f =>
    dsimp only
    split <;> rfl
  | none =>
    dsimp only
    rw [hlast, lookUp_some, pure_bind]
    rfl

theorem moveImport_eq (text source old target new : List Char) :
    moveImport text source old target new = pure (Source.moveImport text source old target new) := by
  rw [moveImport, Source.moveImport, findImported_eq, pure_bind]
  cases hfound : findImported? text source old with
  | none => rfl
  | some found =>
    obtain ⟨f, i, s⟩ := found
    dsimp only
    rw [addItem_eq (of_findImported? hfound).1, pure_bind]
    split
    · split <;> rfl
    · rfl

theorem editImport_eq (text source : List Char) (named : Option (List Char)) (target : List Char)
    (newName : Option (List Char)) :
    editImport text source named target newName = pure (Source.editImport text source named target newName) := by
  unfold editImport Source.editImport
  dsimp only
  cases given? named with
  | none => rfl
  | some old => exact moveImport_eq _ _ _ _ _

/-! ## The edits of a source -/

inductive Primitive where
  | renameElement (old new : List Char)
  | removeAttribute (tag attr : List Char)
  | convertAttribute (tag old new : List Char)
  | editImport (source : List Char) (named : Option (List Char)) (target : List Char)
      (newName : Option (List Char))
  | rewriteCall (callee : List Char) (edits : List CallEdit)
  | editNearAnchor (anchor : Option (List Char)) (before after : List Char) (maxLength window : Int)

/-- What the edit makes of a text. -/
def Primitive.run (text : List Char) : Primitive → List Char
  | .renameElement old new => Source.renameElement text old new
  | .removeAttribute tag attr => Source.removeAttribute text tag attr
  | .convertAttribute tag old new => Source.convertAttribute text tag old new
  | .editImport source named target newName => Source.editImport text source named target newName
  | .rewriteCall callee edits => Source.rewriteCall text callee edits
  | .editNearAnchor anchor before after maxLength window =>
    Source.editNearAnchor text anchor before after maxLength window

/-- The edit as a scan. The replacement near an anchor only searches: it has no loop and looks nothing up. -/
def Primitive.scan (text : List Char) : Primitive → Scan (List Char)
  | .renameElement old new => Scan.renameElement text old new
  | .removeAttribute tag attr => Scan.removeAttribute text tag attr
  | .convertAttribute tag old new => Scan.convertAttribute text tag old new
  | .editImport source named target newName => Scan.editImport text source named target newName
  | .rewriteCall callee edits => Scan.rewriteCall text callee edits
  | .editNearAnchor anchor before after maxLength window =>
    return Source.editNearAnchor text anchor before after maxLength window

theorem Primitive.scan_eq (text : List Char) (p : Primitive) : p.scan text = pure (p.run text) := by
  cases p with
  | renameElement => exact renameElement_eq _ _ _
  | removeAttribute => exact removeAttribute_eq _ _ _
  | convertAttribute => exact convertAttribute_eq _ _ _ _
  | editImport => exact editImport_eq _ _ _ _ _
  | rewriteCall => exact rewriteCall_eq _ _ _
  | editNearAnchor => rfl

/-- Every scan of every text, however malformed, returns: no look-up fails and no turn stands still. A literal is
passed over to an offset behind its first mark and inside the text. The search for the closer of a bracket finds
nothing or an offset further on at which that closer stands. An opening tag is read with its attributes in order
inside it. The ranges of literals and comments are collected and searched, and each edit returns. -/
theorem scans_return (text : List Char) :
    (∀ i mark, text[i]? = some mark → isLiteralMark mark = true →
      literalEnd text i = pure (literalStop text i) ∧
        i < literalStop text i ∧ literalStop text i ≤ text.length) ∧
    (∀ o opening closer, text[o]? = some opening → closer? opening = some closer →
      closing text o = pure (closingAt? text o) ∧
        ∀ c ∈ closingAt? text o, o < c ∧ c < text.length ∧ text[c]? = some closer) ∧
    (∀ name start, tagAt text name start = pure (openingTagAt? text name start) ∧
      ∀ tag ∈ openingTagAt? text name start, tag.InOrder text) ∧
    regions text = pure (inertRanges text) ∧
    (∀ i, isInertAt (inertRanges text) i = pure (decide (Covered text i))) ∧
    (∀ module name, importedAs text module name = pure (importedAs? text module name)) ∧
    ∀ p : Primitive, p.scan text = pure (p.run text) := by
  have hdrop {i : Nat} {c : Char} (h : text[i]? = some c) : text.drop i = c :: text.drop (i + 1) := by
    obtain ⟨hlen, rfl⟩ := List.getElem?_eq_some_iff.1 h
    exact List.drop_eq_getElem_cons hlen
  refine ⟨fun i mark hi hmark => ?_, fun o opening closer ho hcloser => ?_, fun name start => ?_, regions_eq text,
    isInertAt_inertRanges text, importedAs_eq text, Primitive.scan_eq text⟩
  · exact ⟨literalEnd_of_reads (hdrop hi) hmark (readsFrom text _), lt_literalStop (hdrop hi)⟩
  · have hclosing : closingAt? text o = (bracketExtent? opening (text.drop (o + 1))).map (o + ·) := by
      rw [closingAt?, ho, Option.bind_some]
    refine ⟨by rw [closing_of_reads (hdrop ho) hcloser (readsFrom text _), hclosing], fun c hc => ?_⟩
    obtain ⟨n, hn, rfl⟩ := Option.map_eq_some_iff.1 (hclosing.symm.trans hc)
    have hlast := getElem?_of_bracketExtent? hcloser hn
    have hbounds := bracketExtent?_le hn
    rw [List.getElem?_drop, show o + 1 + (n - 1) = o + n by omega] at hlast
    exact ⟨by omega, (List.getElem?_eq_some_iff.1 hlast).1, hlast⟩
  · exact ⟨tagAt_eq text name start, fun tag htag => inOrder_of_openingTagAt? htag⟩

theorem scans_return_sample :
    let text := "g(`a$\x7b'\x7d'\x7d`, [b])".toList
    literalEnd text 2 = pure 11 ∧ closing text 1 = pure (some 16) := by
  obtain ⟨hliteral, hclosing, -⟩ := scans_return "g(`a$\x7b'\x7d'\x7d`, [b])".toList
  have hstop : literalStop "g(`a$\x7b'\x7d'\x7d`, [b])".toList 2 = 11 := by decide
  have hcloser : closingAt? "g(`a$\x7b'\x7d'\x7d`, [b])".toList 1 = some 16 := by decide
  exact ⟨hstop ▸ (hliteral 2 '`' rfl rfl).1, hcloser ▸ (hclosing 1 '(' ')' rfl rfl).1⟩

/-- A backslash may be the last character of a template that never ends. -/
example : literalStop "`$\x7b`\\".toList 0 = 5 := by decide

end Codemod.Source.Scan
