import Axiomc.Formatter.Layout

/-!
# Sorting the imports twice

`sortImportGroups` is described by a relation that follows the groups (`Grouped`).  What it returns is
grouped and sorted already (`Grouped.again`), and lines that are settled stay so when the imports that
change places leave the braces as they are (`SortsNeutrally`, `Grouped.settled`).
-/

namespace Axiomc.Formatter

open Foundation List

/-! ### Groups -/

/-- Comments and the import they belong to. -/
def IsBlock (block : List Text) : Prop :=
  ∃ comments line, block = comments ++ [line] ∧ (∀ c ∈ comments, isComment c = true) ∧
    isComment line = false ∧ isImport line = true

/-- How the sorted lines come from the lines. -/
inductive Grouped : List Text → List Text → Prop
  | nil : Grouped [] []
  | line {line : Text} {rest out : List Text} :
      importBlock (line :: rest) = none → Grouped rest out → Grouped (line :: rest) (line :: out)
  | group {blocks : List (List Text)} {rest out : List Text} :
      blocks ≠ [] → (∀ block ∈ blocks, IsBlock block) → importBlock rest = none → Grouped rest out →
      Grouped (blocks.flatten ++ rest) ((sortBy blockOrder blocks).flatten ++ out)

variable {line : Text} {rest block out : List Text} {state : Layout}

theorem importBlock_cons_comment (h : isComment line = true) :
    importBlock (line :: rest) = none ↔ importBlock rest = none := by
  unfold importBlock
  rw [dropWhile_cons_of_pos h]
  cases rest.dropWhile isComment with
  | nil => exact Iff.rfl
  | cons found rest =>
    dsimp only
    split
    · exact ⟨nofun, nofun⟩
    · exact Iff.rfl

theorem importBlock_cons_other (h : isComment line = false) :
    importBlock (line :: rest) = if isImport line then some ([line], rest) else none := by
  unfold importBlock
  rw [dropWhile_cons_of_neg (by simp [h]), takeWhile_cons_of_neg (by simp [h])]
  rfl

theorem importBlock_block (h : IsBlock block) (rest : List Text) :
    importBlock (block ++ rest) = some (block, rest) := by
  obtain ⟨comments, line, rfl, hcomments, hline, himport⟩ := h
  unfold importBlock
  rw [append_assoc, singleton_append, dropWhile_append_of_pos hcomments,
    takeWhile_append_of_pos hcomments, dropWhile_cons_of_neg (by simp [hline]),
    takeWhile_cons_of_neg (by simp [hline]), append_nil]
  exact if_pos himport

variable {lines : List Text}

theorem importBlock_some (h : importBlock lines = some (block, rest)) :
    IsBlock block ∧ lines = block ++ rest := by
  unfold importBlock at h
  split at h
  next line tail hdrop =>
    split at h
    next himport =>
      obtain ⟨rfl, rfl⟩ := Prod.mk.inj (Option.some.inj h)
      have hline : isComment line = false := by
        have hnot := head?_dropWhile_not isComment lines
        rw [hdrop] at hnot
        simpa using hnot
      refine ⟨⟨_, line, rfl, fun c hc => mem_takeWhile_imp hc, hline, himport⟩, ?_⟩
      rw [append_assoc, singleton_append, ← hdrop, takeWhile_append_dropWhile]
    next => cases h
  next => cases h

theorem IsBlock.length_pos (h : IsBlock block) : 0 < block.length := by
  obtain ⟨comments, line, rfl, -⟩ := h
  simp

theorem importBlocks_eq : ∀ {turns : Nat} {lines : List Text}, lines.length ≤ turns →
    lines = (importBlocks turns lines).1.flatten ++ (importBlocks turns lines).2 ∧
      (∀ block ∈ (importBlocks turns lines).1, IsBlock block) ∧
      importBlock (importBlocks turns lines).2 = none := by
  intro turns
  induction turns with
  | zero =>
    intro lines hlength
    obtain rfl := eq_nil_of_length_eq_zero (Nat.le_zero.mp hlength)
    exact ⟨rfl, nofun, rfl⟩
  | succ turns ih =>
    intro lines hlength
    rw [importBlocks]
    cases hblock : importBlock lines with
    | none => exact ⟨rfl, nofun, hblock⟩
    | some found =>
      obtain ⟨block, rest⟩ := found
      obtain ⟨hisBlock, rfl⟩ := importBlock_some hblock
      have hpos := hisBlock.length_pos
      rw [length_append] at hlength
      have hturns : rest.length ≤ turns := by omega
      obtain ⟨hrest, hblocks, hnone⟩ := ih hturns
      refine ⟨?_, ?_, hnone⟩
      · rw [flatten_cons, append_assoc, ← hrest]
      · intro b hb
        rcases mem_cons.mp hb with rfl | hb
        · exact hisBlock
        · exact hblocks b hb

theorem grouped_sortGroupsFrom : ∀ {turns : Nat} {lines : List Text}, lines.length ≤ turns →
    Grouped lines (sortGroupsFrom turns lines) := by
  intro turns
  induction turns with
  | zero =>
    intro lines hlength
    obtain rfl := eq_nil_of_length_eq_zero (Nat.le_zero.mp hlength)
    exact .nil
  | succ turns ih =>
    intro lines hlength
    rw [sortGroupsFrom]
    obtain ⟨hlines, hblocks, hnone⟩ := importBlocks_eq (Nat.le_refl lines.length)
    split
    next heq =>
      rw [heq] at hlines
      rw [hlines]
      exact .nil
    next line rest heq =>
      rw [heq] at hlines hnone
      rw [flatten_nil, nil_append] at hlines
      rw [hlines, length_cons] at hlength
      rw [hlines]
      exact .line hnone (ih (by omega))
    next blocks rest hnil hcons heq =>
      rw [heq] at hlines hblocks hnone
      have hne : blocks ≠ [] := by
        rintro rfl
        cases rest with
        | nil => exact hnil rfl rfl
        | cons line rest => exact hcons line rest rfl rfl
      obtain ⟨block, tail, rfl⟩ := exists_cons_of_ne_nil hne
      have hpos := (hblocks block mem_cons_self).length_pos
      rw [hlines, flatten_cons, length_append, length_append] at hlength
      rw [hlines]
      exact .group hne hblocks hnone (ih (by omega))

theorem importBlocks_flatten (hnone : importBlock rest = none) :
    ∀ {blocks : List (List Text)} {turns : Nat}, (∀ block ∈ blocks, IsBlock block) →
      blocks.flatten.length + rest.length ≤ turns →
      importBlocks turns (blocks.flatten ++ rest) = (blocks, rest) := by
  intro blocks
  induction blocks with
  | nil =>
    intro turns _ _
    cases turns with
    | zero => rfl
    | succ turns =>
      rw [flatten_nil, nil_append, importBlocks, hnone]
  | cons block blocks ih =>
    intro turns hblocks hturns
    have hblock := hblocks block mem_cons_self
    have hpos := hblock.length_pos
    rw [flatten_cons, length_append] at hturns
    obtain ⟨turns, rfl⟩ : ∃ n, turns = n + 1 := ⟨turns - 1, by omega⟩
    rw [importBlocks, flatten_cons, append_assoc, importBlock_block hblock]
    dsimp only
    rw [ih (fun b hb => hblocks b (mem_cons_of_mem _ hb)) (by omega)]

theorem importBlock_cons_group {blocks : List (List Text)} (hne : blocks ≠ [])
    (hblocks : ∀ block ∈ blocks, IsBlock block) (rest : List Text) :
    importBlock (blocks.flatten ++ rest) ≠ none := by
  obtain ⟨block, tail, rfl⟩ := exists_cons_of_ne_nil hne
  rw [flatten_cons, append_assoc, importBlock_block (hblocks block mem_cons_self)]
  exact nofun

/-- The relation determines what is returned. -/
theorem Grouped.eq (h : Grouped lines out) :
    ∀ turns, lines.length ≤ turns → sortGroupsFrom turns lines = out := by
  induction h with
  | nil =>
    intro turns _
    cases turns with
    | zero => rfl
    | succ turns => rfl
  | @line line rest out hnone _ ih =>
    intro turns hturns
    rw [length_cons] at hturns
    obtain ⟨turns, rfl⟩ : ∃ n, turns = n + 1 := ⟨turns - 1, by omega⟩
    have hblocks : importBlocks (line :: rest).length (line :: rest) = ([], line :: rest) := by
      rw [length_cons, importBlocks, hnone]
    rw [sortGroupsFrom, hblocks]
    exact congrArg (line :: ·) (ih turns (by omega))
  | @group blocks rest out hne hblocks hnone _ ih =>
    intro turns hturns
    have hfound := importBlocks_flatten hnone hblocks (Nat.le_of_eq length_append.symm)
    obtain ⟨block, tail, rfl⟩ := exists_cons_of_ne_nil hne
    have hpos := (hblocks block mem_cons_self).length_pos
    rw [length_append, flatten_cons, length_append] at hturns
    obtain ⟨turns, rfl⟩ : ∃ n, turns = n + 1 := ⟨turns - 1, by omega⟩
    rw [sortGroupsFrom, hfound]
    dsimp only
    rw [ih turns (by omega)]

theorem grouped_sortImportGroups (lines : List Text) : Grouped lines (sortImportGroups lines) :=
  grouped_sortGroupsFrom (Nat.le_refl _)

theorem Grouped.sortImportGroups_eq (h : Grouped lines out) : sortImportGroups lines = out :=
  h.eq _ (Nat.le_refl _)

/-! ### Sorting again -/

instance : Std.TransCmp blockOrder :=
  transCmp_on (fun block : List Text => trim (block.getLastD [])) byteOrder

/-- Where no block begins, none begins in the sorted lines. -/
theorem Grouped.importBlock_none (h : Grouped lines out)
    (hnone : importBlock lines = none) : importBlock out = none := by
  induction h with
  | nil => exact hnone
  | @line line rest out _ _ ih =>
    cases hcomment : isComment line with
    | true =>
      rw [importBlock_cons_comment hcomment] at hnone ⊢
      exact ih hnone
    | false =>
      rw [importBlock_cons_other hcomment] at hnone ⊢
      split at hnone
      · cases hnone
      · rename_i himport
        exact if_neg himport
  | group hne hblocks _ _ _ => exact absurd hnone (importBlock_cons_group hne hblocks _)

theorem Grouped.again (h : Grouped lines out) : Grouped out out := by
  induction h with
  | nil => exact .nil
  | line hnone hrest ih => exact .line ((Grouped.line hnone hrest).importBlock_none hnone) ih
  | @group blocks rest out hne hblocks hnone hrest ih =>
    have hsorted : sortBy blockOrder (sortBy blockOrder blocks) = sortBy blockOrder blocks :=
      (sortBy_sorted blockOrder blocks).insertionSort_eq
    have hagain : Grouped _ ((sortBy blockOrder (sortBy blockOrder blocks)).flatten ++ out) :=
      .group (fun hnil => hne (hnil ▸ sortBy_perm blockOrder blocks).nil_eq.symm)
        (fun block hblock => hblocks block (mem_sortBy.mp hblock)) (hrest.importBlock_none hnone) ih
    rwa [hsorted] at hagain

/-! ### Blank lines at the end -/

theorem importBlock_append_blank (h : importBlock lines = none) :
    importBlock (lines ++ [[]]) = none := by
  induction lines with
  | nil => rfl
  | cons line rest ih =>
    rw [cons_append]
    cases hcomment : isComment line with
    | true =>
      rw [importBlock_cons_comment hcomment] at h ⊢
      exact ih h
    | false =>
      rw [importBlock_cons_other hcomment] at h ⊢
      split at h
      · cases h
      · rename_i himport
        exact if_neg himport

theorem Grouped.append_blank (h : Grouped lines out) : Grouped (lines ++ [[]]) (out ++ [[]]) := by
  induction h with
  | nil => exact .line rfl .nil
  | line hnone _ ih => exact .line (importBlock_append_blank hnone) ih
  | group hne hblocks hnone _ ih =>
    rw [append_assoc, append_assoc]
    exact .group hne hblocks (importBlock_append_blank hnone) ih

/-- Sorted lines stay sorted when the blank lines at their end are dropped. -/
theorem sorted_rdropWhile (h : sortImportGroups lines = lines) :
    sortImportGroups (lines.rdropWhile isEmpty) = lines.rdropWhile isEmpty := by
  induction lines using reverseRecOn with
  | nil => exact h
  | append_singleton lines line ih =>
    cases line with
    | cons c text =>
      rw [rdropWhile_concat_neg _ _ _ (by simp)]
      exact h
    | nil =>
      rw [rdropWhile_concat_pos _ _ _ rfl]
      have hblank := (grouped_sortImportGroups lines).append_blank.sortImportGroups_eq
      rw [h] at hblank
      exact ih (append_cancel_right hblank).symm

/-! ### Sorting settled lines -/

theorem braceDelta_comment (h : isComment line = true) : braceDelta line = 0 := by
  rw [← braceDelta_trimStart]
  exact (Reads.comment h).eq.2.2

/-- A line that leaves the variables of the loop as they are, a blank line before it apart. -/
def Neutral (indent : Nat) (depth : Int) (line : Text) : Prop :=
  ∀ blank, layoutLine ⟨blank, indent, depth⟩ line = (⟨false, indent, depth⟩, [line])

theorem neutral_of_layoutLine {next : Layout} (hdepth : 0 ≤ state.macroDepth)
    (h : layoutLine state line = (next, [line])) (hne : trim line ≠ [])
    (hbraces : braceDelta line = 0) :
    Neutral state.indent state.macroDepth line ∧ next = ⟨false, state.indent, state.macroDepth⟩ := by
  by_cases hdecl : InMacro state line
  · have hall : Neutral state.indent state.macroDepth line := by
      intro blank
      have hdecl' : InMacro ⟨blank, state.indent, state.macroDepth⟩ line := hdecl
      rw [layoutLine_declared hdecl', hbraces, Int.add_zero, max_eq_left hdepth]
    exact ⟨hall, (Prod.mk.inj (h.symm.trans (hall state.previousBlank))).1⟩
  · have hcode := layoutLine_code hdecl hne
    rw [h, hbraces] at hcode
    obtain ⟨hnext, hline⟩ := Prod.mk.inj hcode
    refine ⟨fun blank => ?_, hnext⟩
    have hdecl' : ¬ InMacro ⟨blank, state.indent, state.macroDepth⟩ line := hdecl
    rw [layoutLine_code hdecl' hne, hbraces]
    exact Prod.ext rfl hline.symm

variable {last : Layout}

theorem Settled.neutral (h : Settled state lines last) (hdepth : 0 ≤ state.macroDepth)
    (hlines : ∀ line ∈ lines, trim line ≠ [] ∧ braceDelta line = 0) :
    (∀ line ∈ lines, Neutral state.indent state.macroDepth line) ∧
      (lines ≠ [] → last = ⟨false, state.indent, state.macroDepth⟩) := by
  induction h with
  | nil => exact ⟨nofun, fun h => absurd rfl h⟩
  | @cons state next last line rest hline hrest ih =>
    obtain ⟨hne, hbraces⟩ := hlines line mem_cons_self
    obtain ⟨hneutral, rfl⟩ := neutral_of_layoutLine hdepth hline hne hbraces
    obtain ⟨hall, hlast⟩ := ih hdepth fun l hl => hlines l (mem_cons_of_mem _ hl)
    refine ⟨fun l hl => ?_, fun _ => ?_⟩
    · rcases mem_cons.mp hl with rfl | hl
      · exact hneutral
      · exact hall l hl
    · cases hrest with
      | nil => rfl
      | cons _ _ => exact hlast (cons_ne_nil _ _)

theorem settled_of_neutral {indent : Nat} {depth : Int}
    (h : ∀ line ∈ lines, Neutral indent depth line) (hne : lines ≠ []) :
    ∀ blank, Settled ⟨blank, indent, depth⟩ lines ⟨false, indent, depth⟩ := by
  induction lines with
  | nil => exact absurd rfl hne
  | cons line rest ih =>
    intro blank
    refine .cons (h line mem_cons_self blank) ?_
    cases rest with
    | nil => exact .nil
    | cons next tail =>
      exact ih (fun l hl => h l (mem_cons_of_mem _ hl)) (cons_ne_nil _ _) false

theorem Settled.depth_nonneg (h : Settled state lines last)
    (hdepth : 0 ≤ state.macroDepth) : 0 ≤ last.macroDepth := by
  induction h with
  | nil => exact hdepth
  | @cons _ _ _ line _ hline _ ih =>
    have hnext := macroDepth_nonneg hdepth line
    rw [hline] at hnext
    exact ih hnext

/-- The lines of a block are not blank. -/
theorem IsBlock.mem (h : IsBlock block) (hline : line ∈ block) :
    (isComment line = true ∨ isImport line = true) ∧ trim line ≠ [] := by
  obtain ⟨comments, last, rfl, hcomments, -, himport⟩ := h
  rcases mem_append.mp hline with hline | hline
  · have hcomment := hcomments line hline
    refine ⟨.inl hcomment, fun hnil => ?_⟩
    have hblank : ∀ c ∈ trimStart line, isWhitespace c = true := by
      rw [trim, trimEnd, reverse_eq_nil_iff, dropWhile_eq_nil_iff] at hnil
      exact fun c hc => hnil c (mem_reverse.mpr hc)
    unfold isComment at hcomment
    cases hstart : trimStart line with
    | nil =>
      rw [hstart] at hcomment
      cases hcomment
    | cons c rest =>
      rw [hstart] at hcomment hblank
      have hspace := hblank c mem_cons_self
      rcases startsComment_cons.mp hcomment with rfl | ⟨rfl, -⟩
      · exact absurd hspace (by decide)
      · exact absurd hspace (by decide)
  · obtain rfl := mem_singleton.mp hline
    refine ⟨.inr himport, fun hnil => ?_⟩
    unfold isImport at himport
    rw [hnil] at himport
    exact absurd himport (by decide)

/-- In every run of imports that the sort puts into another order, each import closes the braces that it
opens. -/
def SortsNeutrally (lines : List Text) : Prop :=
  ∀ front blocks back, lines = front ++ (blocks.flatten ++ back) → (∀ block ∈ blocks, IsBlock block) →
    sortBy blockOrder blocks ≠ blocks → ∀ line ∈ blocks.flatten, isImport line = true →
      braceDelta line = 0

theorem sortsNeutrally_of_forall (h : ∀ line ∈ lines, isImport line = true → braceDelta line = 0) :
    SortsNeutrally lines := by
  rintro front blocks back rfl - - line hline
  exact h line (mem_append_right _ (mem_append_left _ hline))

theorem SortsNeutrally.of_append {front : List Text} (h : SortsNeutrally (front ++ lines)) :
    SortsNeutrally lines := by
  rintro front' blocks back rfl
  exact h (front ++ front') blocks back (append_assoc ..).symm

/-- **Sorting settled lines** leaves them settled. -/
theorem Grouped.settled (h : Grouped lines out) :
    ∀ {state last : Layout}, 0 ≤ state.macroDepth → Settled state lines last → SortsNeutrally lines →
      Settled state out last := by
  induction h with
  | nil => exact fun _ h _ => h
  | @line line _ _ _ _ ih =>
    intro state last hdepth hsettled himports
    cases hsettled with
    | cons hline hrest =>
      have hnext := macroDepth_nonneg hdepth line
      rw [hline] at hnext
      have himports : SortsNeutrally ([line] ++ _) := himports
      exact .cons hline (ih hnext hrest himports.of_append)
  | @group blocks rest out hne hblocks _ _ ih =>
    intro state last hdepth hsettled himports
    obtain ⟨between, hgroup, hrest⟩ := hsettled.split
    have hafter := ih (hgroup.depth_nonneg hdepth) hrest himports.of_append
    by_cases hchange : sortBy blockOrder blocks = blocks
    · rw [hchange]
      exact hgroup.append hafter
    have hlines : ∀ line ∈ blocks.flatten, trim line ≠ [] ∧ braceDelta line = 0 := by
      intro line hline
      obtain ⟨block, hblock, hmem⟩ := mem_flatten.mp hline
      obtain ⟨hkind, htext⟩ := (hblocks block hblock).mem hmem
      refine ⟨htext, ?_⟩
      rcases hkind with hcomment | himport
      · exact braceDelta_comment hcomment
      · exact himports [] blocks rest rfl hblocks hchange line hline himport
    obtain ⟨hneutral, hlast⟩ := hgroup.neutral hdepth hlines
    have hperm : (sortBy blockOrder blocks).flatten.Perm blocks.flatten :=
      (sortBy_perm blockOrder blocks).flatten
    have hflat : blocks.flatten ≠ [] := by
      obtain ⟨block, tail, rfl⟩ := exists_cons_of_ne_nil hne
      have hpos := (hblocks block mem_cons_self).length_pos
      exact append_ne_nil_of_left_ne_nil (ne_nil_of_length_pos hpos) _
    have hsorted : Settled state (sortBy blockOrder blocks).flatten between := by
      rw [hlast hflat]
      exact settled_of_neutral (fun line hline => hneutral line (hperm.mem_iff.mp hline))
        (fun hnil => hflat (hnil ▸ hperm).nil_eq.symm) state.previousBlank
    exact hsorted.append hafter

end Axiomc.Formatter
