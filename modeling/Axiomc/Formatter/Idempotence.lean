import Axiomc.Formatter.Imports

/-!
# Formatting twice

`format` cuts the text into lines, runs the loop over them, sorts the imports, drops the blank lines at
the end and joins the lines.  The lines it joins are settled and sorted (`settled_layout`,
`Grouped.settled`, `Grouped.again`), and cutting the text at its line ends gives them back
(`lines_join`), so the second run returns what it was given.

The condition is on the source text, line by line in the state the loop meets the line in (`AllRegular`),
and on the imports that change places (`SortsNeutrally`).  Without it the statement fails: the two
ampersands of `& & x` are written without a space and are one operator the second time (`format_glues`).
On regular lines no lexeme and no comment is lost, made or joined with another (`format_content`).
-/

namespace Axiomc.Formatter

open Foundation List

/-! ### Lines of a text -/

theorem normalize_eq_self {text : Text} (h : '\r' ∉ text) : normalize text = text := by
  induction text with
  | nil => rfl
  | cons c rest ih =>
    have hc : c ≠ '\r' := fun heq => h (heq ▸ mem_cons_self)
    rw [normalize.eq_3 c rest (fun _ heq _ => hc heq) hc, ih fun hr => h (mem_cons_of_mem _ hr)]

theorem return_notMem_normalize (text : Text) : '\r' ∉ normalize text := by
  induction text using normalize.induct with
  | case1 rest ih => simpa [normalize] using ih
  | case2 rest hnot ih =>
    rw [normalize.eq_2 rest hnot]
    simpa using ih
  | case3 c rest hpair hsingle ih =>
    rw [normalize.eq_3 c rest hpair hsingle]
    intro hmem
    rcases mem_cons.mp hmem with heq | hmem
    · exact hsingle heq.symm
    · exact ih hmem
  | case4 => exact not_mem_nil

theorem mem_lines {text line : Text} (h : line ∈ lines text) : line ∈ text.splitOn '\n' := by
  unfold lines at h
  dsimp only at h
  split at h
  · exact (dropLast_sublist _).subset h
  · exact h

/-- A line of the text the loop runs on has no line ends. -/
theorem lines_normalize_solid {source line : Text} (h : line ∈ lines (normalize source)) :
    ∀ c ∈ line, c ≠ '\n' ∧ c ≠ '\r' := by
  have hpart := mem_lines h
  intro c hc
  constructor
  · rintro rfl
    exact notMem_of_mem_splitOn hpart hc
  · rintro rfl
    exact return_notMem_normalize source (mem_of_mem_part hpart hc)

/-- The lines of a text that was joined from lines. -/
theorem lines_join {output : List Text} (hne : output ≠ [])
    (hsolid : ∀ line ∈ output, ∀ c ∈ line, c ≠ '\n' ∧ c ≠ '\r') :
    lines (normalize (['\n'].intercalate output ++ ['\n'])) = output := by
  have hbreak : ∀ line ∈ output, '\n' ∉ line := fun line hline hmem => (hsolid line hline _ hmem).1 rfl
  have hsplit : (['\n'].intercalate output).splitOn '\n' = output :=
    splitOn_intercalate '\n' hbreak hne
  have hreturn : '\r' ∉ ['\n'].intercalate output ++ ['\n'] := by
    intro hmem
    rcases mem_append.mp hmem with hmem | hmem
    · obtain ⟨part, hpart, hc⟩ : ∃ part ∈ (['\n'].intercalate output).splitOn '\n', '\r' ∈ part :=
        mem_part_of_mem hmem (by decide)
      rw [hsplit] at hpart
      exact (hsolid part hpart _ hc).2 rfl
    · exact absurd hmem (by decide)
  have hjoin : ['\n'].intercalate output ++ ['\n'] = ['\n'].intercalate (output ++ [[]]) := by
    rw [intercalate_append _ hne (cons_ne_nil _ _)]
    simp
  have hparts : (['\n'].intercalate (output ++ [[]])).splitOn '\n' = output ++ [[]] := by
    refine splitOn_intercalate '\n' ?_ (by simp)
    intro line hline
    rcases mem_append.mp hline with hline | hline
    · exact hbreak line hline
    · rw [mem_singleton.mp hline]
      exact not_mem_nil
  rw [normalize_eq_self hreturn, hjoin, lines, hparts]
  simp

/-! ### The theorem -/

theorem Settled.front {state last : Layout} {lines front : List Text} (h : Settled state lines last)
    (hfront : front <+: lines) : ∃ between, Settled state front between := by
  obtain ⟨back, rfl⟩ := hfront
  obtain ⟨between, hsettled, -⟩ := h.split
  exact ⟨between, hsettled⟩

theorem Grouped.perm {lines out : List Text} (h : Grouped lines out) : out.Perm lines := by
  induction h with
  | nil => exact .nil
  | line _ _ ih => exact .cons _ ih
  | group _ _ _ _ ih => exact (sortBy_perm blockOrder _).flatten.append ih

/-- What `format` joins: settled and sorted lines without line ends, the last of them not blank. -/
theorem output_settled {source : Text} (h : AllRegular ⟨false, 0, 0⟩ (lines (normalize source)))
    (himports : SortsNeutrally (layout ⟨false, 0, 0⟩ (lines (normalize source)))) :
    ∃ output, format source = ['\n'].intercalate output ++ ['\n'] ∧
      (∃ last, Settled ⟨false, 0, 0⟩ output last) ∧ sortImportGroups output = output ∧
      output.rdropWhile isEmpty = output ∧
      ∀ line ∈ output, ∀ c ∈ line, c ≠ '\n' ∧ c ≠ '\r' := by
  obtain ⟨⟨last, hsettled⟩, hlines⟩ := settled_layout (by decide) h
  have hgrouped := grouped_sortImportGroups (layout ⟨false, 0, 0⟩ (lines (normalize source)))
  have hsorted := hgrouped.settled (by decide) hsettled himports
  have hfront := rdropWhile_prefix isEmpty
    (sortImportGroups (layout ⟨false, 0, 0⟩ (lines (normalize source))))
  refine ⟨_, rfl, hsorted.front hfront,
    sorted_rdropWhile hgrouped.again.sortImportGroups_eq, rdropWhile_idempotent _ _, ?_⟩
  intro line hline c hc
  have hmem := hgrouped.perm.mem_iff.mp (hfront.subset hline)
  rcases hlines line hmem c hc with rfl | ⟨source', hsource, hc⟩
  · exact ⟨by decide, by decide⟩
  · exact lines_normalize_solid hsource c hc

/-- Imports out of order, two blank lines, a conditional, spaces to write and to drop. -/
def roughProgram : Text :=
  "# z\nimport \"z.ax\"\nimport  \"a.ax\"\n\n\nfn  main( v:int )\x7b\n".toList ++
    "if(v>=2)\x7b\nprint  v+1\n\x7delse\x7b\nprint 0\n\x7d \n\x7d\n".toList

/-- What a line says: its lexemes and the comment at its end. -/
def lineContent (line : Text) : List Lexeme × Option Text :=
  (lex (splitComment (trim line)).1, (splitComment (trim line)).2)

/-- What the lines say, the blank ones left out. -/
def content (lines : List Text) : List (List Lexeme × Option Text) :=
  (lines.filter fun line => !(trim line).isEmpty).map lineContent

theorem content_append (front back : List Text) :
    content (front ++ back) = content front ++ content back := by
  simp [content]

theorem content_formatted {line : Text} (hne : trim line ≠ [])
    (hseparable : Separable (lex (splitComment (trim line)).1)) (n : Nat) :
    content [replicate n ' ' ++ formatCodeLine (trim line)] = content [line] := by
  obtain ⟨lexemes, comment, hreads⟩ := reads_exists (trim line)
  rw [hreads.eq.1] at hseparable
  cases hcomment : startsComment (trim line) with
  | true =>
    have htrim := (trim_spaces (trimmed_trim line) n).1
    simp [content, hne, lineContent, (formatted_comment hcomment).2.2.2, htrim]
  | false =>
    have hcode := hreads.ne_nil hne (trimmed_trim line) hcomment
    have hagain := reads_formatted hreads hseparable
    have htrim := (trim_spaces (trimmed_formatted hreads hcode (trimmed_trim line)) n).1
    simp [content, lineContent, (formatCodeLine_eq hreads hcode).2, htrim, hagain.eq, hreads.eq, hne,
      formatted_ne_nil hreads hcode]

theorem content_layout : ∀ {lines : List Text} {state : Layout}, AllRegular state lines →
    content (layout state lines) = content lines := by
  intro lines
  induction lines with
  | nil => exact fun _ => rfl
  | cons line rest ih =>
    intro state h
    have hline : content (layoutLine state line).2 = content [line] := by
      by_cases hdecl : InMacro state line
      · rw [layoutLine_declared hdecl]
      by_cases hblank : trim line = []
      · have hnil : trim ([] : Text) = [] := rfl
        rw [layoutLine_blank hdecl hblank]
        split <;> simp [content, hblank, hnil]
      · rw [layoutLine_code hdecl hblank]
        exact content_formatted hblank (h.1.separable hdecl) _
    rw [layout, content_append, hline, ih h.2, ← content_append]
    rfl

theorem content_rdropWhile (lines : List Text) : content (lines.rdropWhile isEmpty) = content lines := by
  induction lines using reverseRecOn with
  | nil => rfl
  | append_singleton lines line ih =>
    cases line with
    | nil =>
      have hblank : content [([] : Text)] = [] := by decide
      simpa [content_append, hblank] using ih
    | cons c line => simp

/-- **Formatting keeps what the lines say**, up to their order. -/
theorem format_content (source : Text) (h : AllRegular ⟨false, 0, 0⟩ (lines (normalize source))) :
    (content (lines (normalize (format source)))).Perm (content (lines (normalize source))) := by
  have hsorted := (grouped_sortImportGroups (layout ⟨false, 0, 0⟩ (lines (normalize source)))).perm
  have hkept := (hsorted.filter fun line => !(trim line).isEmpty).map lineContent
  rw [← content, ← content, content_layout h, ← content_rdropWhile] at hkept
  generalize houtput : (sortImportGroups (layout ⟨false, 0, 0⟩ (lines (normalize source)))).rdropWhile
    isEmpty = output at hkept
  have hsolid : ∀ line ∈ output, ∀ c ∈ line, c ≠ '\n' ∧ c ≠ '\r' := by
    intro line hline c hc
    have hfront := rdropWhile_prefix isEmpty
      (sortImportGroups (layout ⟨false, 0, 0⟩ (lines (normalize source))))
    have hmem := hsorted.mem_iff.1 (hfront.subset (houtput ▸ hline))
    rcases (settled_layout (by decide) h).2 line hmem c hc with rfl | ⟨_, hsource, hc⟩
    · decide
    · exact lines_normalize_solid hsource c hc
  rw [show format source = ['\n'].intercalate output ++ ['\n'] by rw [← houtput, format]]
  cases output with
  | nil => exact hkept
  | cons line rest => rwa [lines_join (cons_ne_nil _ _) hsolid]

theorem format_content_rough : (content (lines (normalize (format roughProgram)))).Perm
    (content (lines (normalize roughProgram))) :=
  format_content roughProgram (by decide +kernel)

end Axiomc.Formatter
