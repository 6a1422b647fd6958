import Axiomc.Foundation.Text

/-!
# Edits of a text by byte offsets

An edit replaces a range of bytes.  Slicing a `str` off a character boundary panics, so it is partial
here.

* `splitBytes`, `slice`, `replaceRange`: texts cut at byte offsets;
* `replay`: a list of edits applied from the last to the first;
* `Rewrites`: two texts that share the gaps between the edits and differ in the edited ranges, with the
  offsets of the ranges counted from a base.

`Rewrites` composes by `Rewrites.append`, and everything one wants of a list of edits follows from it:
the edits are in order and disjoint (`Rewrites.ordered`), lie on character boundaries, change what they
replace (`Rewrites.proper`) and replay to the other text (`Rewrites.replay`).
-/

namespace Axiomc.Foundation

open List

/-- `str::len`. -/
def byteLength (text : Text) : Nat := (encodeUtf8 text).length

@[simp] theorem byteLength_nil : byteLength [] = 0 := rfl

@[simp] theorem byteLength_append (a b : Text) : byteLength (a ++ b) = byteLength a + byteLength b := by
  simp [byteLength]

theorem byteLength_cons (c : Char) (text : Text) :
    byteLength (c :: text) = c.utf8Size + byteLength text := by
  simp [byteLength, encodeUtf8]

@[simp] theorem byteLength_reverse (text : Text) : byteLength text.reverse = byteLength text := by
  induction text with
  | nil => rfl
  | cons c text ih =>
    rw [reverse_cons, byteLength_append, byteLength_cons, byteLength_cons, byteLength_nil]
    omega

/-- `str::split_at`, where the offset is a character boundary. -/
def splitBytes (offset : Nat) : Text → Option (Text × Text)
  | [] => if offset = 0 then some ([], []) else none
  | c :: text =>
    if offset = 0 then some ([], c :: text)
    else if offset < c.utf8Size then none
    else (splitBytes (offset - c.utf8Size) text).map fun parts => (c :: parts.1, parts.2)

theorem splitBytes_append (a b : Text) : splitBytes (byteLength a) (a ++ b) = some (a, b) := by
  induction a with
  | nil => cases b <;> simp [splitBytes]
  | cons c a ih =>
    have hpos := c.utf8Size_pos
    have hzero : ¬byteLength (c :: a) = 0 := by
      rw [byteLength_cons]
      omega
    have hlt : ¬byteLength (c :: a) < c.utf8Size := by
      rw [byteLength_cons]
      omega
    have hrest : byteLength (c :: a) - c.utf8Size = byteLength a := by
      rw [byteLength_cons]
      omega
    rw [cons_append, splitBytes, if_neg hzero, if_neg hlt, hrest, ih]
    rfl

/-- `str::is_char_boundary`. -/
def isCharBoundary (text : Text) (offset : Nat) : Bool := (splitBytes offset text).isSome

theorem isCharBoundary_append (a b : Text) : isCharBoundary (a ++ b) (byteLength a) = true := by
  rw [isCharBoundary, splitBytes_append]
  rfl

/-- The slice `text[start..stop]`. -/
def slice (text : Text) (start stop : Nat) : Option Text := do
  let parts ← splitBytes start text
  if stop < start then none
  else (splitBytes (stop - start) parts.2).map Prod.fst

theorem slice_append (a b c : Text) :
    slice (a ++ b ++ c) (byteLength a) (byteLength a + byteLength b) = some b := by
  have hwidth : byteLength a + byteLength b - byteLength a = byteLength b := by omega
  rw [slice, append_assoc]
  simp [splitBytes_append]

/-- `String::replace_range`. -/
def replaceRange (text : Text) (start stop : Nat) (replacement : Text) : Option Text := do
  let front ← splitBytes start text
  let back ← splitBytes stop text
  if stop < start then none else some (front.1 ++ replacement ++ back.2)

theorem replaceRange_append (a b c replacement : Text) :
    replaceRange (a ++ b ++ c) (byteLength a) (byteLength a + byteLength b) replacement =
      some (a ++ replacement ++ c) := by
  have hfront : splitBytes (byteLength a) (a ++ b ++ c) = some (a, b ++ c) := by
    rw [append_assoc]
    exact splitBytes_append a (b ++ c)
  have hback : splitBytes (byteLength a + byteLength b) (a ++ b ++ c) = some (a ++ b, c) := by
    rw [← byteLength_append]
    exact splitBytes_append (a ++ b) c
  rw [replaceRange, hfront, hback]
  simp

/-- The bytes from `start` up to `stop` give way to `replacement`. -/
structure Edit where
  start : Nat
  stop : Nat
  replacement : Text
  deriving DecidableEq

/-- The edits applied from the last to the first, so that the offsets of the earlier ones stay right. -/
def replay (text : Text) (edits : List Edit) : Option Text :=
  edits.foldr (fun edit replayed =>
    replayed.bind fun text => replaceRange text edit.start edit.stop edit.replacement) (some text)

/-- The edits make `result` of `text`, where `text` stands at offset `base`. -/
inductive Rewrites : Nat → Text → List Edit → Text → Prop
  | keep (base : Nat) (text : Text) : Rewrites base text [] text
  | edit {base : Nat} {rest rest' : Text} {edits : List Edit} (kept old new : Text) (hne : old ≠ new)
      (hrest : Rewrites (base + byteLength kept + byteLength old) rest edits rest') :
      Rewrites base (kept ++ old ++ rest)
        (⟨base + byteLength kept, base + byteLength kept + byteLength old, new⟩ :: edits)
        (kept ++ new ++ rest')

namespace Rewrites

variable {base : Nat} {text result : Text} {edits : List Edit}

/-- A text in front that is kept. -/
theorem after (front : Text) (h : Rewrites (base + byteLength front) text edits result) :
    Rewrites base (front ++ text) edits (front ++ result) := by
  cases h with
  | keep => exact .keep base _
  | edit kept old new hne hrest =>
    have hstep := @Rewrites.edit base _ _ _ (front ++ kept) old new hne
      (by rwa [byteLength_append, ← Nat.add_assoc])
    simpa only [byteLength_append, Nat.add_assoc, append_assoc] using hstep

theorem append {text' result' : Text} {edits' : List Edit} (h : Rewrites base text edits result)
    (h' : Rewrites (base + byteLength text) text' edits' result') :
    Rewrites base (text ++ text') (edits ++ edits') (result ++ result') := by
  induction h with
  | keep base text => exact h'.after text
  | edit kept old new hne _ ih =>
    have hrest := ih (by simpa only [byteLength_append, Nat.add_assoc] using h')
    have hstep := Rewrites.edit kept old new hne hrest
    simpa using hstep

/-- A piece that becomes another one, with what the two share on both sides. -/
theorem piece (base : Nat) (kept old new rest : Text) (hne : old ≠ new) :
    Rewrites base (kept ++ old ++ rest)
      [⟨base + byteLength kept, base + byteLength kept + byteLength old, new⟩] (kept ++ new ++ rest) :=
  .edit kept old new hne (.keep _ rest)

theorem base_le (h : Rewrites base text edits result) : ∀ e ∈ edits, base ≤ e.start := by
  induction h with
  | keep => exact fun e he => absurd he not_mem_nil
  | edit kept old new hne _ ih =>
    intro e he
    rcases mem_cons.mp he with rfl | he
    · exact Nat.le_add_right _ _
    · have := ih e he
      omega

/-- The edits are sorted by position and disjoint. -/
theorem ordered (h : Rewrites base text edits result) :
    edits.Pairwise fun a b => a.start ≤ b.start ∧ a.stop ≤ b.start := by
  induction h with
  | keep => exact .nil
  | edit kept old new hne hrest ih =>
    refine .cons (fun e he => ?_) ih
    have := hrest.base_le e he
    exact ⟨by dsimp only; omega, this⟩

/-- Every edit lies on character boundaries and changes what it replaces. -/
theorem proper (h : Rewrites base text edits result) :
    ∀ front : Text, byteLength front = base → ∀ e ∈ edits,
      e.start ≤ e.stop ∧ isCharBoundary (front ++ text) e.start = true ∧
        isCharBoundary (front ++ text) e.stop = true ∧
        slice (front ++ text) e.start e.stop ≠ some e.replacement := by
  induction h with
  | keep => exact fun _ _ e he => absurd he not_mem_nil
  | @edit base rest rest' edits kept old new hne _ ih =>
    intro front hfront e he
    subst hfront
    have htext : front ++ (kept ++ old ++ rest) = front ++ kept ++ old ++ rest := by
      simp
    rcases mem_cons.mp he with rfl | he
    · have hstart := isCharBoundary_append (front ++ kept) (old ++ rest)
      have hstop := isCharBoundary_append (front ++ kept ++ old) rest
      have hslice := slice_append (front ++ kept) old rest
      simp only [byteLength_append, ← append_assoc] at hstart hstop hslice
      rw [htext]
      refine ⟨Nat.le_add_right _ _, hstart, hstop, ?_⟩
      rw [hslice]
      exact fun h => hne (Option.some.inj h)
    · rw [htext]
      exact ih (front ++ kept ++ old) (by simp only [byteLength_append]) e he

/-- Replayed from the last to the first, the edits give the result. -/
theorem replay (h : Rewrites base text edits result) : ∀ front : Text, byteLength front = base →
      Foundation.replay (front ++ text) edits = some (front ++ result) := by
  induction h with
  | keep => exact fun _ _ => rfl
  | @edit base rest rest' edits kept old new hne _ ih =>
    intro front hfront
    subst hfront
    have hrest := ih (front ++ kept ++ old) (by simp only [byteLength_append])
    have hfirst := replaceRange_append (front ++ kept) old rest' new
    simp only [byteLength_append, append_assoc] at hrest hfirst ⊢
    show (Foundation.replay _ edits).bind _ = _
    rw [hrest]
    exact hfirst

end Rewrites

end Axiomc.Foundation
