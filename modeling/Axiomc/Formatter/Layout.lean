import Axiomc.Formatter.Lines

/-!
# The loop over the lines, run twice

A line that is put out is put out unchanged when the loop meets it again in the same state, under a
condition on the line it was made from (`Regular`).  The step lemma is `layoutLine_settles`; along a run
it gives that the lines the loop puts out are settled (`settled_layout`): run on them, the loop goes
through the same states and copies every line.

Three things can go wrong for a line of code, and `Regular` excludes them: lexemes that are written
without a space can be read as others (`Separable`), closing braces that were apart are written together
and then count as leading (`closers`), and words that were not a macro declaration for want of a single
space become one (`BeginsMacro`).
-/

namespace Axiomc.Formatter

open Foundation List

/-! ### Settled lines -/

/-- Run on these lines, the loop copies them and goes from the first state to the second. -/
inductive Settled : Layout → List Text → Layout → Prop
  | nil {state : Layout} : Settled state [] state
  | cons {state next last : Layout} {line : Text} {rest : List Text} :
      layoutLine state line = (next, [line]) → Settled next rest last →
      Settled state (line :: rest) last

variable {state last : Layout}

theorem Settled.layout_eq {lines : List Text} (h : Settled state lines last) :
    layout state lines = lines := by
  induction h with
  | nil => rfl
  | cons hline _ ih =>
    rw [layout, hline]
    exact congrArg (_ :: ·) ih

variable {front back : List Text}

theorem Settled.split (h : Settled state (front ++ back) last) :
    ∃ between, Settled state front between ∧ Settled between back last := by
  induction front generalizing state with
  | nil => exact ⟨state, .nil, h⟩
  | cons line front ih =>
    cases h with
    | cons hline hrest =>
      obtain ⟨between, hfront, hback⟩ := ih hrest
      exact ⟨between, .cons hline hfront, hback⟩

theorem Settled.append {between : Layout}
    (hfront : Settled state front between) (hback : Settled between back last) :
    Settled state (front ++ back) last := by
  induction hfront with
  | nil => exact hback
  | cons hline _ ih => exact .cons hline (ih hback)

/-! ### A turn of the loop -/

/-- The loop copies this line as part of a macro declaration. -/
def InMacro (state : Layout) (line : Text) : Prop :=
  state.macroDepth > 0 ∨ (state.macroDepth == 0 && startsMacroDeclaration (trim line)) = true

instance (state : Layout) (line : Text) : Decidable (InMacro state line) := by
  unfold InMacro
  infer_instance

variable {line : Text}

theorem layoutLine_declared (h : InMacro state line) : layoutLine state line =
      (⟨false, state.indent, max (state.macroDepth + braceDelta line) 0⟩, [line]) := by
  exact if_pos h

theorem layoutLine_blank (h : ¬ InMacro state line) (hblank : trim line = []) : layoutLine state line =
      ({ state with previousBlank := true }, if state.previousBlank then [] else [[]]) := by
  unfold InMacro at h
  unfold layoutLine
  rw [if_neg h, if_pos (by rw [hblank]; rfl)]

theorem layoutLine_code (h : ¬ InMacro state line) (hcode : trim line ≠ []) : layoutLine state line =
      (⟨false, indentAfter state.indent (braceDelta line), state.macroDepth⟩,
        [replicate (4 * (state.indent - leadingCloses (trim line))) ' ' ++
          formatCodeLine (trim line)]) := by
  unfold InMacro at h
  unfold layoutLine
  rw [if_neg h, if_neg (by simpa using hcode), braceDelta_trim]

theorem macroDepth_nonneg (h : 0 ≤ state.macroDepth) (line : Text) :
    0 ≤ (layoutLine state line).1.macroDepth := by
  by_cases hdecl : InMacro state line
  · rw [layoutLine_declared hdecl]
    exact le_max_right _ _
  · by_cases hblank : trim line = []
    · rw [layoutLine_blank hdecl hblank]
      exact h
    · rw [layoutLine_code hdecl hblank]
      exact h

/-! ### The condition -/

/-- The condition on a line that the loop meets in this state. -/
structure Regular (state : Layout) (line : Text) : Prop where
  separable : ¬ InMacro state line → Separable (lex (splitComment (trim line)).1)
  /-- The closing braces the line begins with stand together, as far as they count. -/
  closes : ¬ InMacro state line → state.indent - leadingCloses (trim line) =
    state.indent - closers (lex (splitComment (trim line)).1)
  /-- What will be read as a macro declaration opens no brace and closes none. -/
  declares : ¬ InMacro state line → BeginsMacro (lex (splitComment (trim line)).1) →
    braceDelta line = 0

instance (state : Layout) (line : Text) : Decidable (Regular state line) :=
  decidable_of_iff
    ((¬ InMacro state line → Separable (lex (splitComment (trim line)).1)) ∧
      (¬ InMacro state line → state.indent - leadingCloses (trim line) =
        state.indent - closers (lex (splitComment (trim line)).1)) ∧
      (¬ InMacro state line → BeginsMacro (lex (splitComment (trim line)).1) → braceDelta line = 0))
    ⟨fun ⟨h₁, h₂, h₃⟩ => ⟨h₁, h₂, h₃⟩, fun ⟨h₁, h₂, h₃⟩ => ⟨h₁, h₂, h₃⟩⟩

/-- Every line is regular in the state the loop meets it in. -/
def AllRegular : Layout → List Text → Prop
  | _, [] => True
  | state, line :: rest => Regular state line ∧ AllRegular (layoutLine state line).1 rest

instance decidableAllRegular : ∀ (state : Layout) (lines : List Text),
    Decidable (AllRegular state lines)
  | _, [] => .isTrue trivial
  | state, line :: rest =>
    have := decidableAllRegular (layoutLine state line).1 rest
    inferInstanceAs (Decidable (Regular state line ∧ AllRegular (layoutLine state line).1 rest))

/-! ### What is put out -/

theorem inMacro_nil (h : ¬ state.macroDepth > 0) : ¬ InMacro state [] := by
  rintro (hdepth | hstart)
  · exact h hdepth
  · rw [Bool.and_eq_true] at hstart
    exact absurd hstart.2 (by decide)

/-- A comment line is copied, and is the same line afterwards. -/
theorem formatted_comment (hcomment : startsComment line = true) :
    startsMacroDeclaration line = false ∧ leadingCloses line = 0 ∧ braceDelta line = 0 ∧
      formatCodeLine line = line := by
  have hreads := Reads.comment hcomment
  refine ⟨?_, ?_, hreads.eq.2.2, ?_⟩
  · rw [Bool.eq_false_iff]
    intro hdecl
    rcases beginsMacro_of_starts hreads hdecl with h | h
    · exact absurd h (by simp)
    · exact absurd h (by simp)
  · apply leadingCloses_of_head
    intro hhead
    cases line with
    | nil => cases hhead
    | cons c rest =>
      obtain rfl := Option.some.inj hhead
      rcases startsComment_cons.mp hcomment with h | ⟨h, -⟩
      · cases h
      · cases h
  · unfold formatCodeLine
    rw [if_pos hcomment]

/-- What holds of the line that is put out for a source line. -/
structure Settles (state : Layout) (source : Text) (next : Layout) (line : Text) : Prop where
  same : layoutLine state line = (next, [line])
  mem : ∀ c ∈ line, c = ' ' ∨ c ∈ source

theorem trimEnd_begins (text : Text) : trimEnd text <+: text := by
  have hsuffix := dropWhile_suffix (l := text.reverse) isWhitespace
  rw [← reverse_prefix, reverse_reverse] at hsuffix
  exact hsuffix

theorem mem_of_mem_trim {c : Char} (h : c ∈ trim line) : c ∈ line :=
  (dropWhile_suffix isWhitespace).subset ((trimEnd_begins _).subset h)

section

variable {state : Layout} {line : Text}

theorem settles_comment (hdecl : ¬ InMacro state line) (hcomment : startsComment (trim line) = true) :
    Settles state line (layoutLine state line).1
      (replicate (4 * (state.indent - leadingCloses (trim line))) ' ' ++
        formatCodeLine (trim line)) := by
  obtain ⟨hstart, hcloses, hbraces, hformat⟩ := formatted_comment hcomment
  have hne : trim line ≠ [] := by
    intro hnil
    rw [hnil] at hcomment
    cases hcomment
  rw [hformat]
  generalize hout : replicate (4 * (state.indent - leadingCloses (trim line))) ' ' ++ trim line = out
  have htrim : trim out = trim line := by
    rw [← hout]
    exact (trim_spaces (trimmed_trim line) _).1
  have hdelta : braceDelta out = 0 := by rw [← braceDelta_trim, htrim, hbraces]
  have hdecl' : ¬ InMacro state out := by
    unfold InMacro at hdecl ⊢
    rwa [htrim]
  refine ⟨?_, ?_⟩
  · rw [layoutLine_code hdecl' (by rwa [htrim]), layoutLine_code hdecl hne, htrim, hformat, hout,
      hdelta, ← braceDelta_trim line, hbraces]
  · intro c hc
    rw [← hout] at hc
    rcases mem_append.mp hc with hc | hc
    · exact .inl (eq_of_mem_replicate hc)
    · exact .inr (mem_of_mem_trim hc)

theorem settles_code (hdepth : 0 ≤ state.macroDepth) (h : Regular state line)
    (hdecl : ¬ InMacro state line) (hne : trim line ≠ [])
    (hcomment : startsComment (trim line) = false) : Settles state line (layoutLine state line).1
      (replicate (4 * (state.indent - leadingCloses (trim line))) ' ' ++
        formatCodeLine (trim line)) := by
  obtain ⟨lexemes, comment, hreads⟩ := reads_exists (trim line)
  obtain ⟨hseparable, hcloses, hdeclares⟩ := h
  rw [hreads.eq.1] at hseparable hcloses hdeclares
  have hcode := hreads.ne_nil hne (trimmed_trim line) hcomment
  have hagain := reads_formatted hreads (hseparable hdecl)
  rw [(formatCodeLine_eq hreads hcode).2, hcloses hdecl]
  generalize hout : replicate (4 * (state.indent - closers lexemes)) ' ' ++
    (render lexemes ++ ending comment) = out
  have htrim : trim out = render lexemes ++ ending comment := by
    rw [← hout]
    exact (trim_spaces (trimmed_formatted hreads hcode (trimmed_trim line)) _).1
  have hdelta : braceDelta out = braceDelta line := by
    rw [← braceDelta_trim, htrim, hagain.eq.2.2, ← braceDelta_trim line, hreads.eq.2.2]
  refine ⟨?_, ?_⟩
  · by_cases hdecl' : InMacro state out
    · -- read as a macro declaration, the line is copied
      have hzero : state.macroDepth = 0 := le_antisymm (not_lt.mp fun hpos => hdecl (.inl hpos)) hdepth
      have hstart : startsMacroDeclaration (trim out) = true := by
        rcases hdecl' with hpos | hstart
        · exact absurd (.inl hpos) hdecl
        · exact (Bool.and_eq_true _ _ ▸ hstart).2
      have hbraces : braceDelta line = 0 := by
        rw [htrim] at hstart
        exact hdeclares hdecl (beginsMacro_of_starts hagain hstart)
      rw [layoutLine_declared hdecl', layoutLine_code hdecl hne, hdelta, hbraces, hzero]
      rfl
    · rw [layoutLine_code hdecl' (by rw [htrim]; exact formatted_ne_nil hreads hcode),
        layoutLine_code hdecl hne, htrim, closes_formatted hreads,
        (formatCodeLine_eq hagain hcode).2, hout, hdelta]
  · intro c hc
    rw [← hout] at hc
    rcases mem_append.mp hc with hc | hc
    · exact .inl (eq_of_mem_replicate hc)
    · exact (mem_formatted hreads hc).imp_right mem_of_mem_trim

/-- **A turn of the loop.**  A blank line after a blank line is dropped; for any other line one line is
put out, and it is settled. -/
theorem layoutLine_settles (hdepth : 0 ≤ state.macroDepth) (h : Regular state line) :
    layoutLine state line = (state, []) ∨
      ∃ next out, layoutLine state line = (next, [out]) ∧ Settles state line next out := by
  by_cases hdecl : InMacro state line
  · exact .inr ⟨_, line, layoutLine_declared hdecl, layoutLine_declared hdecl, fun _ => .inr⟩
  by_cases hblank : trim line = []
  · have hline := layoutLine_blank hdecl hblank
    cases hprevious : state.previousBlank with
    | true =>
      refine .inl (hline.trans ?_)
      rw [if_pos hprevious, ← hprevious]
    | false =>
      rw [hprevious] at hline
      have hnil : ¬ InMacro state [] := inMacro_nil fun hpos => hdecl (.inl hpos)
      refine .inr ⟨_, [], hline, ?_, fun _ => nofun⟩
      have hagain := layoutLine_blank hnil rfl
      rwa [hprevious] at hagain
  have hline := layoutLine_code hdecl hblank
  refine .inr ⟨(layoutLine state line).1, _, by rw [hline], ?_⟩
  cases hcomment : startsComment (trim line) with
  | true => exact settles_comment hdecl hcomment
  | false => exact settles_code hdepth h hdecl hblank hcomment

end

/-- **The lines the loop puts out are settled**, and their characters are spaces and the source's. -/
theorem settled_layout : ∀ {lines : List Text} {state : Layout}, 0 ≤ state.macroDepth →
    AllRegular state lines → (∃ last, Settled state (layout state lines) last) ∧
      ∀ out ∈ layout state lines, ∀ c ∈ out, c = ' ' ∨ ∃ line ∈ lines, c ∈ line := by
  intro lines
  induction lines with
  | nil => exact fun _ _ => ⟨⟨_, .nil⟩, nofun⟩
  | cons line rest ih =>
    intro state hdepth h
    obtain ⟨hregular, hrest⟩ := h
    obtain ⟨⟨last, hsettled⟩, hall⟩ := ih (macroDepth_nonneg hdepth line) hrest
    have hall' : ∀ out ∈ layout (layoutLine state line).1 rest,
        ∀ c ∈ out, c = ' ' ∨ ∃ source ∈ line :: rest, c ∈ source := by
      intro out hout c hc
      exact (hall out hout c hc).imp_right
        fun ⟨source, hsource, hc⟩ => ⟨source, mem_cons_of_mem _ hsource, hc⟩
    rw [layout]
    rcases layoutLine_settles hdepth hregular with hdropped | ⟨next, out, hline, hout⟩
    · rw [hdropped] at hsettled hall' ⊢
      exact ⟨⟨last, hsettled⟩, hall'⟩
    · rw [hline] at hsettled hall' ⊢
      refine ⟨⟨last, .cons hout.same hsettled⟩, fun found hfound => ?_⟩
      rcases mem_cons.mp hfound with rfl | hfound
      · exact fun c hc => (hout.mem c hc).imp_right fun hsource => ⟨line, mem_cons_self, hsource⟩
      · exact hall' found hfound

end Axiomc.Formatter
