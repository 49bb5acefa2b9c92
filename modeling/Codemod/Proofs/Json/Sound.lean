import Codemod.Json.Reader
import Codemod.Proofs.Json.Written
import Codemod.Proofs.Text.Digits
import Mathlib.Data.List.Nodup

/-! Values that a text can have. An object has each of its keys once, and no integer has more digits than
are read. -/
namespace Codemod.Json
open Text

inductive Sound : Json → Prop
  | null : Sound .null
  | bool (b : Bool) : Sound (.bool b)
  | int {n : Int} (h : n.natAbs < 10 ^ digitLimit) : Sound (.int n)
  | float (x : Float) : Sound (.float x)
  | str (s : String) : Sound (.str s)
  | arr {items : List Json} (h : ∀ v ∈ items, Sound v) : Sound (.arr items)
  | obj {fields : List (String × Json)} (h : ∀ f ∈ fields, Sound f.2)
      (hkeys : (fields.map (·.1)).Nodup) : Sound (.obj fields)

/-! ## Fields -/

structure SoundFields (fields : List (String × Json)) : Prop where
  values : ∀ f ∈ fields, Sound f.2
  keys : (fields.map (·.1)).Nodup

theorem sound_obj_iff {fields : List (String × Json)} : Sound (.obj fields) ↔ SoundFields fields :=
  ⟨fun h => by cases h with | obj h hkeys => exact ⟨h, hkeys⟩, fun h => .obj h.values h.keys⟩

theorem mem_set {name : String} {value : α} {fields : List (String × α)} {f : String × α}
    (h : f ∈ set name value fields) : f = (name, value) ∨ f ∈ fields := by
  induction fields with
  | nil => exact .inl (List.mem_singleton.1 h)
  | cons g fields ih =>
    unfold set at h
    split at h
    · exact (List.mem_cons.1 h).imp id (List.mem_cons_of_mem g)
    · rcases List.mem_cons.1 h with rfl | h
      · exact .inr (List.mem_cons_self ..)
      · exact (ih h).imp id (List.mem_cons_of_mem g)

theorem nodup_set {name : String} {value : α} {fields : List (String × α)}
    (h : (fields.map (·.1)).Nodup) : ((set name value fields).map (·.1)).Nodup := by
  induction fields with
  | nil => simp [set]
  | cons g fields ih =>
    rw [List.map_cons, List.nodup_cons] at h
    unfold set
    split
    · next hg =>
      rw [List.map_cons, List.nodup_cons, ← hg]
      exact h
    · next hg =>
      rw [List.map_cons, List.nodup_cons]
      refine ⟨fun hmem => ?_, ih h.2⟩
      obtain ⟨f, hf, hname⟩ := List.mem_map.1 hmem
      rcases mem_set hf with rfl | hf
      · exact hg hname.symm
      · exact h.1 (List.mem_map.2 ⟨f, hf, hname⟩)

namespace SoundFields

variable {fields : List (String × Json)}

theorem nil : SoundFields [] := ⟨by simp, by simp⟩

theorem set (h : SoundFields fields) (name : String) {v : Json} (hv : Sound v) :
    SoundFields (Json.set name v fields) where
  values := fun f hf => (mem_set hf).elim (fun he => he ▸ hv) (h.values f)
  keys := nodup_set h.keys

theorem erase (h : SoundFields fields) (name : String) : SoundFields (Json.erase name fields) where
  values := fun f hf => h.values f (List.mem_of_mem_filter hf)
  keys := h.keys.sublist (List.filter_sublist.map _)

theorem reverse (h : SoundFields fields) : SoundFields fields.reverse where
  values := fun f hf => h.values f (List.mem_reverse.1 hf)
  keys := by
    rw [List.map_reverse, List.nodup_reverse]
    exact h.keys

theorem addField (h : SoundFields fields) (name : String) {v : Json} (hv : Sound v) :
    SoundFields (Json.addField name v fields) := by
  unfold Json.addField
  split
  · exact h.set name hv
  · next hnew =>
    refine ⟨List.forall_mem_cons.2 ⟨hv, h.values⟩, ?_⟩
    rw [List.map_cons, List.nodup_cons]
    refine ⟨fun hmem => hnew ?_, h.keys⟩
    obtain ⟨f, hf, hname⟩ := List.mem_map.1 hmem
    exact List.any_eq_true.2 ⟨f, hf, beq_iff_eq.2 hname⟩

theorem get? (h : SoundFields fields) {name : String} {v : Json} (hv : Json.get? fields name = some v) :
    Sound v := by
  obtain ⟨f, hf, rfl⟩ := Option.map_eq_some_iff.1 hv
  exact h.values f (List.mem_of_find?_eq_some hf)

end SoundFields

/-! ## Reading -/

def Partial.Sound : Partial → Prop
  | .array items => ∀ v ∈ items, Json.Sound v
  | .object fields _ => SoundFields fields

/-- What has been read so far is sound. -/
structure State.Sound (s : State) : Prop where
  stack : ∀ p ∈ s.stack, p.Sound
  result : ∀ v ∈ s.result, Json.Sound v

theorem State.Sound.push {s : State} {v : Json} (h : ∀ p ∈ s.stack, p.Sound) (hv : Json.Sound v) :
    (s.push v).Sound := by
  unfold State.push
  split
  · exact ⟨by simp, by simpa using hv⟩
  · next items outer hstack =>
    rw [hstack, List.forall_mem_cons] at h
    exact ⟨List.forall_mem_cons.2 ⟨List.forall_mem_cons.2 ⟨hv, h.1⟩, h.2⟩, by simp⟩
  · next fields key outer hstack =>
    rw [hstack, List.forall_mem_cons] at h
    exact ⟨List.forall_mem_cons.2 ⟨SoundFields.addField h.1 key hv, h.2⟩, by simp⟩

theorem sound_of_wholeNumber {negative : Bool} {digits : List Char} {v : Json}
    (h : wholeNumber negative digits = .ok v) : Sound v := by
  unfold wholeNumber at h
  split at h
  · cases h
  · next hlength =>
    obtain rfl := Except.ok.inj h
    have hlt : digitsValue digits < 10 ^ digitLimit :=
      (digitsValue_lt digits).trans_le (Nat.pow_le_pow_right (by decide) (Nat.not_lt.1 hlength))
    refine .int ?_
    split
    · rwa [Int.natAbs_neg, Int.natAbs_natCast]
    · rwa [Int.natAbs_natCast]

theorem sound_of_scalar? {t : Token} {v : Json} (h : scalar? t = some (.ok v)) : Sound v := by
  cases t with
  | null => cases h; exact .null
  | bool b => cases h; exact .bool b
  | str s => cases h; exact .str _
  | whole negative digits => exact sound_of_wholeNumber (Option.some.inj h)
  | decimal | infinite | nan => cases h; exact .float _
  | openArray | closeArray | openObject | closeObject | comma | colon | bad => cases h

namespace State.Sound

variable {s s' : State} {t : Token}

theorem value (hs : s.Sound) (h : s.value t = .ok s') : s'.Sound := by
  unfold State.value at h
  split at h
  · obtain rfl := Except.ok.inj h
    exact ⟨List.forall_mem_cons.2 ⟨by simp [Partial.Sound], hs.stack⟩, by simp⟩
  · obtain rfl := Except.ok.inj h
    exact ⟨List.forall_mem_cons.2 ⟨SoundFields.nil, hs.stack⟩, by simp⟩
  · split at h
    · next r hr =>
      cases r with
      | error e => cases h
      | ok v =>
        obtain rfl := Except.ok.inj h
        exact push hs.stack (sound_of_scalar? hr)
    · cases h

theorem close (hs : s.Sound) (h : s.close t = .ok s') : s'.Sound := by
  have hstack := hs.stack
  unfold State.close at h
  split at h
  · next items outer heq =>
    rw [heq, List.forall_mem_cons] at hstack
    obtain rfl := Except.ok.inj h
    exact push hstack.2 (.arr fun v hv => hstack.1 v (List.mem_reverse.1 hv))
  · next fields key outer heq =>
    rw [heq, List.forall_mem_cons] at hstack
    obtain rfl := Except.ok.inj h
    exact push hstack.2 (sound_obj_iff.2 (SoundFields.reverse hstack.1))
  · cases h

theorem key (hs : s.Sound) (h : s.key t = .ok s') : s'.Sound := by
  have hstack := hs.stack
  unfold State.key at h
  split at h
  · next fields old outer name heq =>
    rw [heq, List.forall_mem_cons] at hstack
    obtain rfl := Except.ok.inj h
    exact ⟨List.forall_mem_cons.2 hstack, by simp⟩
  · cases h

theorem feed (hs : s.Sound) (h : s.feed t = .ok s') : s'.Sound := by
  unfold State.feed at h
  split at h
  · exact hs.value h
  · split at h
    · exact hs.close h
    · exact hs.value h
  · exact hs.key h
  · split at h
    · exact hs.close h
    · exact hs.key h
  · split at h
    · obtain rfl := Except.ok.inj h
      exact ⟨hs.stack, hs.result⟩
    · cases h
  · split at h
    · split at h
      · obtain rfl := Except.ok.inj h
        exact ⟨hs.stack, hs.result⟩
      · obtain rfl := Except.ok.inj h
        exact ⟨hs.stack, hs.result⟩
      · cases h
    · exact hs.close h

theorem run {ts : List Token} (hs : s.Sound) (h : ts.foldlM State.feed s = .ok s') : s'.Sound := by
  induction ts generalizing s with
  | nil =>
    obtain rfl := Except.ok.inj h
    exact hs
  | cons t ts ih =>
    obtain ⟨next, hfeed, hrun⟩ := foldlM_cons_iff.1 h
    exact ih (hs.feed hfeed) hrun

end State.Sound

/-- Every value that is read is sound. -/
theorem sound_of_read {cs : List Char} {v : Json} (h : read cs = .ok v) : Sound v := by
  obtain ⟨s, hrun, hresult⟩ := read_eq_ok_iff.1 h
  have hstart : State.start.Sound := ⟨by simp [State.start], by simp [State.start]⟩
  exact (hstart.run hrun).result v hresult

end Codemod.Json
