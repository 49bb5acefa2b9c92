import Codemod.Proofs.Source.Imports
import Codemod.Proofs.Source.Reread
import Codemod.Proofs.Source.Splice
import Codemod.Source.ImportEdit

/-! One declaration in its text. Replacing it, dropping it with its line, or adding one behind the last
leaves all others as they are. -/
namespace Codemod.Source
open Text

/-- Where a declaration stands: what is in front of it, what it takes, and what follows. -/
structure Place (text : List Char) (f : Found ImportDecl) where
  front : List Char
  written : List Char
  rest : List Char
  text_eq : text = front ++ (written ++ rest)
  start_eq : f.start = front.length
  length_eq : f.length = written.length
  front_line : front = [] ∨ front.getLast? = some '\n'
  read : importDecl none (written ++ rest) = some (f.value, written.length)

variable {text : List Char} {f : Found ImportDecl} {before after : List (Found ImportDecl)}

theorem nonempty_place (hf : f ∈ imports text) : Nonempty (Place text f) := by
  obtain ⟨front, tail, htext, hstart, hread⟩ := (isPlace_of_mem_foundFrom hf).1
  have hbehind : (lastOr none front).any (· != '\n') = false := by
    by_contra hne
    rw [importDecl_eq_none (by simpa using hne)] at hread
    cases hread
  rw [importDecl_of_behind hbehind] at hread
  have hlen : f.length ≤ tail.length := length_le_of_importDecl hread
  refine ⟨⟨front, tail.take f.length, tail.drop f.length, ?_, ?_, ?_, ?_, ?_⟩⟩
  · rw [htext, List.take_append_drop]
  · simpa using hstart
  · simp [hlen]
  · cases hlast : front.getLast? with
    | none => exact .inl (List.getLast?_eq_none_iff.1 hlast)
    | some c => exact .inr (by simpa [lastOr, hlast] using hbehind)
  · rw [List.take_append_drop, hread]
    simp [hlen]

namespace Place

theorem stop_eq (p : Place text f) : f.stop = p.front.length + p.written.length := by
  rw [Found.stop, p.start_eq, p.length_eq]

theorem behind_line (p : Place text f) : (lastOr none p.front).any (· != '\n') = false := by
  rcases p.front_line with h | h <;> simp [lastOr, h]

/-- What is found in front of a declaration stays when the text is written anew from its place on. -/
theorem imports_append (p : Place text f) (h : imports text = before ++ f :: after) :
    (∀ tail, imports (p.front ++ tail) =
      before ++ foundFrom importDecl p.front.length 0 (lastOr none p.front) tail) ∧
    after.map (·.value) = declarations (p.rest.dropWhile (· != '\n')) := by
  obtain ⟨s, tail, htail⟩ := exists_shape_of_importDecl p.read
  have hmem : f ∈ foundFrom importDecl 0 0 none (p.front ++ s.before tail) := by
    rw [← htail, ← p.text_eq]
    have hf : f ∈ imports text := by simp [h]
    exact hf
  obtain ⟨found, hfound, hrest⟩ := settled_front p.front_line hmem (by
    rw [p.start_eq, Nat.zero_add])
  rw [Nat.zero_add] at hfound hrest
  obtain ⟨after', heq, hafter⟩ := foundFrom_declaration p.behind_line p.read p.front.length
  have hself : (⟨p.front.length, p.written.length, f.value⟩ : Found ImportDecl) = f := by
    rw [← p.start_eq, ← p.length_eq]
  have hsplit : before ++ f :: after = found ++ f :: after' := by
    rw [← h, ← hself, ← heq, ← hrest, ← p.text_eq]
    rfl
  -- no two declarations begin at one place, so the two lists are cut at the same one
  have hsorted : (before ++ f :: after).Pairwise fun a b => a.start < b.start := by
    rw [← h]
    exact pairwise_foundFrom importDecl 0 0 none text
  have hbefore : f ∉ before := fun hm =>
    absurd ((List.pairwise_append.1 hsorted).2.2 f hm f (by simp)) (by omega)
  have hafter' : f ∉ after := by
    intro hm
    have hlt := (List.pairwise_cons.1 (List.pairwise_append.1 hsorted).2.1).1 f hm
    omega
  obtain ⟨rfl, -, rfl⟩ := (List.append_cons_inj_of_notMem hbefore hafter').1 hsplit
  exact ⟨hrest, hafter⟩

/-- What has been read can be rendered, also without its semicolon when it had none. -/
theorem renderable (p : Place text f) : f.value.Renderable ∧
    (f.value.semicolon = false → hasSemicolon p.rest = false) := renderable_of_importDecl p.read

theorem isRead (p : Place text f) : f.value.IsRead := isRead_of_importDecl p.read

theorem take_start (p : Place text f) : text.take f.start = p.front := by
  have htake : (p.front ++ (p.written ++ p.rest)).take f.start = p.front := by
    rw [p.start_eq, List.take_left]
  rwa [← p.text_eq] at htake

theorem drop_stop (p : Place text f) : text.drop f.stop = p.rest := by
  have hdrop : (p.front ++ (p.written ++ p.rest)).drop f.stop = p.rest := by
    rw [p.stop_eq, ← List.append_assoc, List.drop_left' (by simp)]
  rwa [← p.text_eq] at hdrop

theorem splice_eq (p : Place text f) (new : List Char) (gone : Nat) :
    splice text [⟨f.start, f.stop + gone, new⟩] = p.front ++ (new ++ p.rest.drop gone) := by
  rw [splice_singleton, p.take_start, ← List.drop_drop, p.drop_stop, List.append_assoc]

/-- A declaration is replaced by what is rendered for it, and the others stay. -/
theorem imports_replaced (p : Place text f) (h : imports text = before ++ f :: after)
    {d : ImportDecl} (hd : d.IsRead) {items : List Specifier} (hitems : ∀ s ∈ items, s.Legible)
    (hrest : d.semicolon = false → hasSemicolon p.rest = false) :
    ∃ d' found, imports (splice text [⟨f.start, f.stop, d.render items⟩]) = before ++ found ∧
      found.map (·.value) = d' :: after.map (·.value) ∧ d.Reread items d' := by
  obtain ⟨d', hread, hreread⟩ := hd.reread_render hitems hrest
  obtain ⟨after', heq, hafter⟩ := foundFrom_declaration p.behind_line hread p.front.length
  obtain ⟨himports, hvalues⟩ := p.imports_append h
  refine ⟨d', ⟨p.front.length, (d.render items).length, d'⟩ :: after', ?_, ?_, hreread⟩
  · have hsplice := p.splice_eq (d.render items) 0
    rw [Nat.add_zero, List.drop_zero] at hsplice
    rw [hsplice, himports, heq]
  · rw [List.map_cons, hafter, hvalues]

/-- A declaration goes with the rest of its line, and the others stay. -/
theorem imports_dropped (p : Place text f) (h : imports text = before ++ f :: after) {gone : Nat}
    (hgone : declarations (p.rest.drop gone) = declarations (p.rest.dropWhile (· != '\n'))) :
    ∃ found, imports (splice text [⟨f.start, f.stop + gone, []⟩]) = before ++ found ∧
      found.map (·.value) = after.map (·.value) := by
  obtain ⟨himports, hvalues⟩ := p.imports_append h
  refine ⟨_, by rw [p.splice_eq, List.nil_append, himports], ?_⟩
  rw [map_value_foundFrom_line p.behind_line, hgone, hvalues]

/-- The declaration is read alike when what is behind its line changes. -/
theorem reread (p : Place text f) {line tail tail' : List Char} (hrest : p.rest = line ++ tail)
    (htail : AtLineEnd tail) (htail' : AtLineEnd tail') :
    importDecl none (p.written ++ (line ++ tail')) = some (f.value, p.written.length) := by
  obtain ⟨init, c, hwritten, hc⟩ := getLast?_of_importDecl p.read
  have hbounded : Bounded (p.written ++ line) := by
    refine ⟨c, by simp [hwritten], ?_⟩
    rcases hc with hc | rfl
    · simp [endsClause, hc]
    · rfl
  have hread := p.read
  rw [hrest, ← List.append_assoc, hbounded.importDecl_append htail] at hread
  rw [← List.append_assoc, hbounded.importDecl_append htail', hread]

/-- A line behind a declaration adds what is declared on it. -/
theorem imports_line (p : Place text f) (h : imports text = before ++ f :: after) {line tail : List Char}
    (hline : '\n' ∉ line) (hrest : p.rest = line ++ tail) (htail : AtLineEnd tail)
    {d : ImportDecl} (hd : d.IsRead) {items : List Specifier} (hitems : ∀ s ∈ items, s.Legible) :
    ∃ d' found, imports (p.front ++ (p.written ++ (line ++ '\n' :: (d.render items ++ '\n' ::
        tail.drop 1)))) = before ++ f :: found ∧
      found.map (·.value) = d' :: after.map (·.value) ∧ d.Reread items d' := by
  obtain ⟨d', hread, hreread⟩ := hd.reread_render hitems
    (fun _ => rfl : d.semicolon = false → hasSemicolon ('\n' :: tail.drop 1) = false)
  have hnone : (none : Option Char).any (· != '\n') = false := rfl
  obtain ⟨onLine, honLine, hbehind⟩ := foundFrom_declaration hnone hread 0
  have hline' : AtLineEnd ('\n' :: (d.render items ++ '\n' :: tail.drop 1)) := by simp [AtLineEnd]
  obtain ⟨found, heq, hfound⟩ :=
    foundFrom_declaration p.behind_line (p.reread hrest htail hline') p.front.length
  obtain ⟨himports, hvalues⟩ := p.imports_append h
  have hself : (⟨p.front.length, p.written.length, f.value⟩ : Found ImportDecl) = f := by
    rw [← p.start_eq, ← p.length_eq]
  refine ⟨d', found, by rw [himports, heq, hself], ?_, hreread⟩
  have hnew : declarations (d.render items ++ '\n' :: tail.drop 1) =
      d' :: declarations (tail.drop 1) := by
    rw [declarations, imports, Source.found, honLine, List.map_cons, hbehind]
    exact congrArg (d' :: ·) (declarations_line_feed _)
  rw [hfound, dropWhile_line hline hline', declarations_line_feed, hnew, hvalues, hrest,
    dropWhile_line hline htail, declarations_drop_one htail]

end Place

/-- The end of a line, found from inside it. -/
theorem lineEnd_eq {text line : List Char} {offset : Nat} {tail : List Char}
    (hdrop : text.drop offset = line ++ tail) (hline : '\n' ∉ line) (htail : AtLineEnd tail)
    (hoffset : offset ≤ text.length) :
    lineEnd text offset = offset + line.length + (tail.take 1).length := by
  have hlen := congrArg List.length hdrop
  rw [List.length_drop, List.length_append] at hlen
  unfold lineEnd
  rw [hdrop]
  cases tail with
  | nil =>
    rw [List.append_nil, List.idxOf?_eq_none_iff.2 hline]
    simp at hlen ⊢
    omega
  | cons c tail =>
    obtain rfl : c = '\n' := htail c rfl
    rw [idxOf?_append hline]
    rfl

end Codemod.Source
