import Axiomc.Foundation.Edits

/-!
# The edits of a format report

The embedding of `formatter_report.rs`: the edits that lead from a source to its formatted text.  Where
the formatted text is the source with its lines trimmed and its blank lines dropped, there is an edit for
each changed line; otherwise one edit covers the text.  An edit is cut down to what lies between the
common start and the common end of the two texts.

The slices of `precise_edit` panic off character boundaries, so the functions are partial.  They never
fail, and the edits replay to the formatted text (`formatEdits_replay`): `preciseEdit_rewrites` says this
of one edit, `lineEdits_rewrites` of the loop over the lines, whatever the formatter made of them.
-/

namespace Axiomc.Formatter

open Foundation List

/-- `FormatEdit::action`. -/
inductive Action where
  | replaceLine | deleteLine | insertLine
  deriving DecidableEq

structure FormatEdit where
  action : Action
  line : Nat
  before : Option Text
  after : Option Text
  startByte : Nat
  endByte : Nat
  replacement : Text

/-- The replacement that an edit of the report asks for. -/
def FormatEdit.edit (e : FormatEdit) : Edit := ⟨e.startByte, e.endByte, e.replacement⟩

structure SourceLine where
  startByte : Nat
  text : Text

/-- `str::split_inclusive` at line feeds. -/
def splitInclusive : Text → List Text
  | [] => []
  | c :: rest =>
    if c = '\n' then [c] :: splitInclusive rest
    else ((c :: (splitInclusive rest).headD []) :: (splitInclusive rest).tail)

/-- The loop of `source_lines`. -/
def sourceLinesFrom (startByte : Nat) : List Text → List SourceLine
  | [] => []
  | text :: rest => ⟨startByte, text⟩ :: sourceLinesFrom (startByte + byteLength text) rest

def sourceLines (source : Text) : List SourceLine := sourceLinesFrom 0 (splitInclusive source)

/-- `str::strip_suffix` of a character. -/
def stripEnd (c : Char) (text : Text) : Option Text :=
  if text.getLast? = some c then some text.dropLast else none

def trimLineEnding (line : Text) : Text :=
  (((stripEnd '\n' line).bind fun line => (stripEnd '\r' line).or (some line))).getD line

def normalizedLine (line : Text) : Text :=
  trimEnd ((trimLineEnding line).flatMap fun c => if c = '\t' then "    ".toList else [c])

/-- The characters two texts begin with. -/
def common (left right : Text) : Text :=
  ((left.zip right).takeWhile fun pair => pair.1 == pair.2).map Prod.fst

def commonPrefixBytes (left right : Text) : Nat := byteLength (common left right)

def commonSuffixBytes (left right : Text) : Nat :=
  byteLength (common left.reverse right.reverse)

def preciseEdit (action : Action) (line base : Nat) (before after : Text) : Option FormatEdit := do
  let start := commonPrefixBytes before after
  let beforeRest ← slice before start (byteLength before)
  let afterRest ← slice after start (byteLength after)
  let ending := commonSuffixBytes beforeRest afterRest
  let replacement ← slice after start (byteLength after - ending)
  some {
    action, line
    before := if action = .insertLine then none else some (trimLineEnding before)
    after := if action = .deleteLine then none else some (trimLineEnding after)
    startByte := base + start
    endByte := base + byteLength before - ending
    replacement }

/-- The loop that fills `expected`. -/
def expectedFrom (lastContent index : Nat) (previousBlank : Bool) :
    List SourceLine → List (Option Text)
  | [] => []
  | line :: rest =>
    let normalized := normalizedLine line.text
    let blank := normalized.isEmpty
    let emit := index ≤ lastContent && !(blank && previousBlank)
    (if emit then some (normalized ++ ['\n']) else none) ::
      expectedFrom lastContent (index + 1) (if emit then blank else previousBlank) rest

/-- `rposition` of a line with content. -/
def lastContent (lines : List SourceLine) : Option Nat :=
  (lines.reverse.findIdx? fun line => !(normalizedLine line.text).isEmpty).map fun fromEnd =>
    lines.length - 1 - fromEnd

/-- One turn of the loop over the lines. -/
def lineEdit (index : Nat) (line : SourceLine) (after : Option Text) : Option (List FormatEdit) :=
  match after with
  | some after =>
    if line.text ≠ after then
      (preciseEdit .replaceLine (index + 1) line.startByte line.text after).map ([·])
    else some []
  | none => (preciseEdit .deleteLine (index + 1) line.startByte line.text []).map ([·])

/-- The loop over the lines. -/
def lineEdits (index : Nat) : List SourceLine → List (Option Text) → Option (List FormatEdit)
  | line :: lines, after :: rest => do
    let first ← lineEdit index line after
    let edits ← lineEdits (index + 1) lines rest
    some (first ++ edits)
  | _, _ => some []

def formatEdits (original formatted : Text) : Option (List FormatEdit) :=
  if original = formatted then some []
  else
    let lines := sourceLines original
    let expected := expectedFrom ((lastContent lines).getD 0) 0 false lines
    let rebuilt := (expected.filterMap id).flatten
    if rebuilt ≠ formatted ∧ ¬(lines.isEmpty ∧ formatted = ['\n']) then
      (preciseEdit .replaceLine 1 0 original formatted).map ([·])
    else do
      let edits ← lineEdits 0 lines expected
      if lines.isEmpty then
        let inserted ← preciseEdit .insertLine 1 0 [] formatted
        some (edits ++ [inserted])
      else some edits

/-! ### One edit -/

theorem common_cons (c d : Char) (left right : Text) :
    common (c :: left) (d :: right) = if c = d then c :: common left right else [] := by
  by_cases hcd : c = d <;> simp [common, hcd]

theorem common_spec (left right : Text) :
    ∃ l r : Text, left = common left right ++ l ∧ right = common left right ++ r := by
  induction left generalizing right with
  | nil => exact ⟨[], right, rfl, rfl⟩
  | cons c left ih =>
    cases right with
    | nil => exact ⟨c :: left, [], rfl, rfl⟩
    | cons d right =>
      rw [common_cons]
      split
      · next hcd =>
        subst hcd
        obtain ⟨l, r, hl, hr⟩ := ih right
        exact ⟨l, r, by rw [cons_append, ← hl], by rw [cons_append, ← hr]⟩
      · exact ⟨c :: left, d :: right, rfl, rfl⟩

/-- The common start of two texts, then the common end of what it leaves: the two never overlap. -/
theorem exists_common (before after : Text) : ∃ kept old new shared : Text,
      before = kept ++ (old ++ shared) ∧ after = kept ++ (new ++ shared) ∧ common before after = kept ∧
        common (old ++ shared).reverse (new ++ shared).reverse = shared.reverse := by
  obtain ⟨l, r, hbefore, hafter⟩ := common_spec before after
  obtain ⟨old, new, hl, hr⟩ := common_spec l.reverse r.reverse
  have hl' : l = old.reverse ++ (common l.reverse r.reverse).reverse := by
    rw [← reverse_append, ← hl, reverse_reverse]
  have hr' : r = new.reverse ++ (common l.reverse r.reverse).reverse := by
    rw [← reverse_append, ← hr, reverse_reverse]
  refine ⟨common before after, old.reverse, new.reverse, (common l.reverse r.reverse).reverse,
    ?_, ?_, rfl, ?_⟩
  · rw [← hl']
    exact hbefore
  · rw [← hr']
    exact hafter
  · rw [← hl', ← hr', reverse_reverse]

theorem slice_rest (a b : Text) : slice (a ++ b) (byteLength a) (byteLength (a ++ b)) = some b := by
  have hslice := slice_append a b []
  rwa [append_nil, ← byteLength_append] at hslice

/-- An edit of a piece leaves what the two texts have in common on both sides. -/
theorem preciseEdit_rewrites (action : Action) (line base : Nat) {before after : Text}
    (hne : before ≠ after) : ∃ e, preciseEdit action line base before after = some e ∧
      Rewrites base before [e.edit] after := by
  obtain ⟨kept, old, new, shared, hbefore, hafter, hkept, hshared⟩ := exists_common before after
  have hdiffer : old ≠ new := by
    intro heq
    apply hne
    rw [hbefore, hafter, heq]
  have hbeforeRest : slice before (byteLength kept) (byteLength before) = some (old ++ shared) := by
    rw [hbefore]
    exact slice_rest kept _
  have hafterRest : slice after (byteLength kept) (byteLength after) = some (new ++ shared) := by
    rw [hafter]
    exact slice_rest kept _
  have hreplacement : slice after (byteLength kept) (byteLength after - byteLength shared) =
      some new := by
    have hstop : byteLength after - byteLength shared = byteLength kept + byteLength new := by
      rw [hafter]
      simp only [byteLength_append]
      omega
    rw [hstop, hafter, ← append_assoc]
    exact slice_append kept new shared
  have hend : base + byteLength before - byteLength shared =
      base + byteLength kept + byteLength old := by
    rw [hbefore]
    simp only [byteLength_append]
    omega
  refine ⟨⟨action, line, if action = .insertLine then none else some (trimLineEnding before),
    if action = .deleteLine then none else some (trimLineEnding after),
    base + byteLength kept, base + byteLength kept + byteLength old, new⟩, ?_, ?_⟩
  · simp only [preciseEdit, commonPrefixBytes, commonSuffixBytes, hkept, hbeforeRest, hafterRest,
      hshared, byteLength_reverse, hreplacement, hend, Option.bind_eq_bind, Option.bind_some]
  · have hpiece := Rewrites.piece base kept old new shared hdiffer
    rwa [append_assoc, ← hbefore, append_assoc, ← hafter] at hpiece

/-! ### The lines -/

theorem splitInclusive_flatten (source : Text) : (splitInclusive source).flatten = source := by
  induction source with
  | nil => rfl
  | cons c rest ih =>
    rw [splitInclusive]
    split
    · rw [flatten_cons, ih]
      rfl
    · cases hlines : splitInclusive rest with
      | nil | cons line lines =>
        rw [hlines] at ih
        rw [← ih]
        rfl

theorem splitInclusive_ne_nil (source : Text) : ∀ line ∈ splitInclusive source, line ≠ [] := by
  induction source with
  | nil => exact fun line hline => absurd hline not_mem_nil
  | cons c rest ih =>
    intro line hline
    rw [splitInclusive] at hline
    split at hline
    · rcases mem_cons.mp hline with rfl | hline
      · exact cons_ne_nil _ _
      · exact ih line hline
    · rcases mem_cons.mp hline with rfl | hline
      · exact cons_ne_nil _ _
      · exact ih line (mem_of_mem_tail hline)

theorem length_sourceLinesFrom (start : Nat) (texts : List Text) :
    (sourceLinesFrom start texts).length = texts.length := by
  induction texts generalizing start with
  | nil => rfl
  | cons text texts ih =>
    rw [sourceLinesFrom, length_cons, ih, length_cons]

theorem length_expectedFrom (lastContent index : Nat) (previousBlank : Bool) (lines : List SourceLine) :
    (expectedFrom lastContent index previousBlank lines).length = lines.length := by
  induction lines generalizing index previousBlank with
  | nil => rfl
  | cons line rest ih =>
    rw [expectedFrom]
    simp [ih]

theorem lineEdit_rewrites (index start : Nat) {text : Text} (hne : text ≠ []) (after : Option Text) :
    ∃ edits, lineEdit index ⟨start, text⟩ after = some edits ∧
      Rewrites start text (edits.map FormatEdit.edit) (after.getD []) := by
  cases after with
  | none =>
    obtain ⟨e, he, hrewrites⟩ := preciseEdit_rewrites .deleteLine (index + 1) start hne
    exact ⟨[e], by simp [lineEdit, he], hrewrites⟩
  | some after =>
    by_cases htext : text = after
    · subst htext
      exact ⟨[], by simp [lineEdit], .keep start text⟩
    · obtain ⟨e, he, hrewrites⟩ := preciseEdit_rewrites .replaceLine (index + 1) start htext
      exact ⟨[e], by simp [lineEdit, htext, he], hrewrites⟩

/-- The loop over the lines, for whatever is expected of them. -/
theorem lineEdits_rewrites (texts : List Text) :
    ∀ (index start : Nat) (expected : List (Option Text)), (∀ text ∈ texts, text ≠ []) →
      expected.length = texts.length →
      ∃ edits, lineEdits index (sourceLinesFrom start texts) expected = some edits ∧
        Rewrites start texts.flatten (edits.map FormatEdit.edit) (expected.filterMap id).flatten := by
  induction texts with
  | nil =>
    intro index start expected _ hlength
    rw [eq_nil_of_length_eq_zero hlength]
    exact ⟨[], rfl, .keep start []⟩
  | cons text texts ih =>
    intro index start expected hne hlength
    obtain ⟨after, rest, rfl⟩ := exists_cons_of_length_eq_add_one hlength
    obtain ⟨first, hfirst, hrewrites⟩ :=
      lineEdit_rewrites index start (hne text mem_cons_self) after
    obtain ⟨edits, hedits, hrest⟩ := ih (index + 1) (start + byteLength text) rest
      (fun t ht => hne t (mem_cons_of_mem _ ht)) (Nat.succ.inj hlength)
    refine ⟨first ++ edits, ?_, ?_⟩
    · rw [sourceLinesFrom, lineEdits, hfirst, hedits]
      rfl
    · have hresult : ((after :: rest).filterMap id).flatten =
          after.getD [] ++ (rest.filterMap id).flatten := by
        cases after <;> rfl
      rw [map_append, hresult]
      exact hrewrites.append hrest

/-! ### The report -/

theorem formatEdits_rewrites (original formatted : Text) :
    ∃ edits, formatEdits original formatted = some edits ∧
      Rewrites 0 original (edits.map FormatEdit.edit) formatted := by
  by_cases hsame : original = formatted
  · subst hsame
    exact ⟨[], if_pos rfl, .keep 0 original⟩
  unfold formatEdits
  rw [if_neg hsame]
  dsimp only
  generalize hexpected :
    expectedFrom ((lastContent (sourceLines original)).getD 0) 0 false (sourceLines original) = expected
  split
  · obtain ⟨e, he, hrewrites⟩ := preciseEdit_rewrites .replaceLine 1 0 hsame
    exact ⟨[e], by rw [he]; rfl, hrewrites⟩
  next hrebuilt =>
    obtain ⟨edits, hedits, hlines⟩ := lineEdits_rewrites (splitInclusive original) 0 0 expected
      (splitInclusive_ne_nil original)
      (by rw [← hexpected, length_expectedFrom, sourceLines, length_sourceLinesFrom])
    rw [splitInclusive_flatten] at hlines
    rw [sourceLines, hedits]
    cases original with
    | nil =>
      -- an empty source has no lines, and its formatted text is inserted
      obtain ⟨e, he, hrewrites⟩ := preciseEdit_rewrites .insertLine 1 0 hsame
      cases hedits
      exact ⟨[e], by rw [he]; rfl, hrewrites⟩
    | cons c rest =>
      have hlinesNe : (sourceLinesFrom 0 (splitInclusive (c :: rest))).isEmpty = false := by
        rw [splitInclusive]
        split <;> rfl
      have hformatted : (expected.filterMap id).flatten = formatted := by
        by_contra hne
        exact hrebuilt ⟨hne, by rw [sourceLines, hlinesNe]; simp⟩
      refine ⟨edits, ?_, hformatted ▸ hlines⟩
      rw [hlinesNe]
      rfl

/-- **Edit replay.**  The edits between any two texts are sorted by position and disjoint, lie on
character boundaries, each of them changes the text, and replayed from the last to the first they lead
from the one text to the other. -/
theorem formatEdits_replay (original formatted : Text) :
    ∃ edits, formatEdits original formatted = some edits ∧
      edits.Pairwise (fun a b => a.startByte ≤ b.startByte ∧ a.endByte ≤ b.startByte) ∧
      (∀ e ∈ edits, e.startByte ≤ e.endByte ∧ isCharBoundary original e.startByte = true ∧
        isCharBoundary original e.endByte = true ∧
        slice original e.startByte e.endByte ≠ some e.replacement) ∧
      replay original (edits.map FormatEdit.edit) = some formatted := by
  obtain ⟨edits, hedits, hrewrites⟩ := formatEdits_rewrites original formatted
  refine ⟨edits, hedits, ?_, ?_, hrewrites.replay [] rfl⟩
  · exact pairwise_map.mp hrewrites.ordered
  · intro e he
    exact hrewrites.proper [] rfl e.edit (mem_map_of_mem he)

/-- A tab in the first line becomes four spaces, and the second blank line goes. -/
example :
    (formatEdits "é\ta\n\n\nb\n".toList "é    a\n\nb\n".toList).map (map FormatEdit.edit) =
      some [⟨2, 3, "    ".toList⟩, ⟨6, 7, []⟩] := by
  decide +kernel

end Axiomc.Formatter
