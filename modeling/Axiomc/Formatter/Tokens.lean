import Axiomc.Formatter.Core
import Mathlib.Algebra.Order.Ring.Int

/-!
# Lexemes of a line

`lex`, `split_comment` and `brace_delta` scan a line three times.  `Reads line lexemes comment` says in
one relation what a line consists of: white space, lexemes as long as the loop makes them (`Reading`),
and a comment.  Every line reads as something (`reads_exists`), and what it reads as determines the
result of the three scans (`Reads.eq`).
-/

namespace Axiomc.Formatter

open Foundation List Quoting

/-! ### Scans -/

/-- Inside a literal both scans run to where `quoted` ends it. -/
theorem scan_quoted (delimiter : Char) : ∀ (rest : Text) (escaped : Bool),
      splitCommentFrom ⟨some delimiter, escaped⟩ rest = ((quoted delimiter escaped rest).1 ++
              (splitCommentFrom unquoted (quoted delimiter escaped rest).2).1,
            (splitCommentFrom unquoted (quoted delimiter escaped rest).2).2) ∧
        braceDeltaFrom ⟨some delimiter, escaped⟩ rest =
          braceDeltaFrom unquoted (quoted delimiter escaped rest).2 := by
  intro rest
  induction rest with
  | nil => exact fun _ => ⟨rfl, rfl⟩
  | cons c rest ih =>
    intro escaped
    cases escaped with
    | true =>
      have hnext : next ⟨some delimiter, true⟩ c = ⟨some delimiter, false⟩ := rfl
      simp only [splitCommentFrom, braceDeltaFrom, quoted, hnext, (ih false).1, (ih false).2]
      exact ⟨rfl, by simp⟩
    | false =>
      by_cases hescape : c = '\\'
      · subst hescape
        have hnext : next ⟨some delimiter, false⟩ '\\' = ⟨some delimiter, true⟩ := rfl
        simp only [splitCommentFrom, braceDeltaFrom, quoted, hnext, (ih true).1, (ih true).2]
        exact ⟨rfl, by simp⟩
      · by_cases hclose : c = delimiter
        · subst hclose
          have hnext : next ⟨some c, false⟩ c = unquoted := by
            simp [Quoting.next, hescape, unquoted]
          simp [splitCommentFrom, braceDeltaFrom, quoted, hnext, hescape]
        · have hnext : next ⟨some delimiter, false⟩ c = ⟨some delimiter, false⟩ := by
            simp [Quoting.next, hescape, hclose]
          simp [splitCommentFrom, braceDeltaFrom, quoted, hnext, hescape, hclose, (ih false).1,
            (ih false).2]

variable {tail rest : Text} {c : Char} {l : Lexeme}

/-- A literal that is cut off by what follows ends there in any text; else nothing follows. -/
theorem quoted_append {delimiter : Char} {body : Text} :
    ∀ {escaped : Bool}, quoted delimiter escaped (body ++ tail) = (body, tail) →
      tail = [] ∨ ∀ other, quoted delimiter escaped (body ++ other) = (body, other) := by
  induction body with
  | nil =>
    intro escaped h
    left
    cases tail with
    | nil => rfl
    | cons c rest =>
      have hlength := congrArg (fun r => r.1.length) h
      cases escaped with
      | true => simp [quoted] at hlength
      | false =>
        simp only [nil_append, quoted] at hlength
        split at hlength
        · simp at hlength
        · split at hlength <;> simp at hlength
  | cons c body ih =>
    intro escaped h
    -- a character inside the literal leaves the rest to the induction hypothesis
    have hinside : ∀ next, (∀ other, quoted delimiter escaped (c :: other) =
        (c :: (quoted delimiter next other).1, (quoted delimiter next other).2)) →
          tail = [] ∨ ∀ other, quoted delimiter escaped (c :: body ++ other) = (c :: body, other) := by
      intro next hstep
      rw [cons_append, hstep, Prod.mk.injEq, cons.injEq] at h
      rcases ih (Prod.ext h.1.2 h.2) with hnil | hall
      · exact .inl hnil
      · right
        intro other
        rw [cons_append, hstep, hall other]
    cases escaped with
    | true => exact hinside false fun _ => rfl
    | false =>
      by_cases hescape : c = '\\'
      · exact hinside true fun _ => by simp [quoted, hescape]
      · by_cases hclose : c = delimiter
        · right
          intro other
          simp only [cons_append, quoted, hclose, beq_self_eq_true, if_true, Prod.mk.injEq,
            cons.injEq, beq_eq_false_iff_ne.mpr (hclose ▸ hescape), Bool.false_eq_true, if_false,
            true_and] at h ⊢
          rw [← h.1]
          simp
        · exact hinside false fun _ => by simp [quoted, hescape, hclose]

/-! ### Reading a lexeme -/

/-- A character that stands alone before this text: the two make no operator and no comment. -/
def Free (c : Char) (tail : Text) : Prop :=
  ∀ d ∈ tail.head?, [c, d] ∉ multi ∧ ¬ (c = '/' ∧ d = '/')

/-- A character of a word. -/
def InWord (c : Char) : Prop := endsWord c = false ∧ c ≠ '#'

/-- The lexeme is what is read before this text. -/
inductive Reading : Lexeme → Text → Prop
  | literal {q : Char} {body tail : Text} (hq : isQuote q = true)
      (h : quoted q false (body ++ tail) = (body, tail)) : Reading ⟨q :: body, .literal⟩ tail
  | multi {operator tail : Text} (h : operator ∈ multi) : Reading ⟨operator, .operator⟩ tail
  | punctuation {c : Char} {tail : Text} (hc : isPunctuation c = true) (h : Free c tail) :
      Reading ⟨[c], .punctuation⟩ tail
  | operator {c : Char} {tail : Text} (hc : isOperator c = true) (h : Free c tail) :
      Reading ⟨[c], .operator⟩ tail
  | word {c : Char} {w tail : Text} (hc : InWord c) (hw : ∀ x ∈ w, InWord x)
      (h : ∀ d ∈ tail.head?, ¬ InWord d) : Reading ⟨c :: w, .word⟩ tail

/-- The characters the lexer treats alike. -/
theorem InWord.ne (h : InWord c) :
    isWhitespace c = false ∧ isPunctuation c = false ∧ isOperator c = false ∧ isQuote c = false := by
  simpa [endsWord, and_assoc] using h.1

theorem whitespace_plain (h : isWhitespace c = true) :
    isQuote c = false ∧ c ≠ '#' ∧ c ≠ '/' ∧ c ≠ '{' ∧ c ≠ '}' ∧ ¬ InWord c := by
  have hne : ∀ d, isWhitespace d = false → c ≠ d := by
    rintro d hd rfl
    rw [h] at hd
    cases hd
  refine ⟨?_, hne _ (by decide), hne _ (by decide), hne _ (by decide), hne _ (by decide),
    fun hword => hne c hword.ne.1 rfl⟩
  rw [isQuote, Bool.or_eq_false_iff, beq_eq_false_iff_ne, beq_eq_false_iff_ne]
  exact ⟨hne _ (by decide), hne _ (by decide)⟩

theorem symbol_plain (h : isPunctuation c = true ∨ isOperator c = true) :
    isQuote c = false ∧ isWhitespace c = false ∧ c ≠ '#' := by
  have hall : (['{', '}', '(', ')', '[', ']', ',', ';', ':', '.', '+', '-', '*', '/', '%', '=', '<', '>',
      '!', '&', '|', '?'].all fun c => !isQuote c && !isWhitespace c && c != '#') = true := by decide
  simp only [isPunctuation, isOperator, contains_eq_mem, decide_eq_true_eq] at h
  simpa [and_assoc] using all_eq_true.1 hall c (mem_append.mpr h)

theorem length_of_mem_multi {operator : Text} (h : operator ∈ multi) :
    ∃ c d, operator = [c, d] ∧ (isOperator c = true ∨ c = ':') := by
  have hall : ∀ operator ∈ multi, operator.length = 2 ∧
      (operator.head?.any fun c => isOperator c || c == ':') = true := by decide
  obtain ⟨hlength, hhead⟩ := hall operator h
  obtain ⟨c, d, rfl⟩ := length_eq_two.mp hlength
  exact ⟨c, d, rfl, by simpa using hhead⟩

/-- No operator of two characters begins where a character stands alone. -/
theorem find_multi_eq_none (h : ∀ d ∈ tail.head?, [c, d] ∉ multi) :
    (multi.find? fun operator => operator.isPrefixOf (c :: tail)) = none := by
  rw [find?_eq_none]
  intro operator hmem hbegins
  obtain ⟨x, y, rfl, -⟩ := length_of_mem_multi hmem
  obtain ⟨rest, hrest⟩ := isPrefixOf_iff_prefix.mp hbegins
  obtain ⟨rfl, rfl⟩ := hrest
  exact h y (by simp) hmem

theorem find_multi_eq_some {operator : Text} (h : operator ∈ multi) (tail : Text) :
    (multi.find? fun found => found.isPrefixOf (operator ++ tail)) = some operator := by
  simp only [multi, mem_cons, not_mem_nil, or_false] at h
  rcases h with rfl | rfl | rfl | rfl | rfl | rfl | rfl | rfl | rfl | rfl | rfl | rfl | rfl <;> rfl

/-- What is read is what the lexer takes, before a text that is no comment. -/
theorem nextLexeme_of_reading (h : Reading l tail)
    (hcode : ∀ d ∈ tail.head?, d ≠ '#') :
    ∃ c rest, l.text = c :: rest ∧ isWhitespace c = false ∧ c ≠ '#' ∧
      nextLexeme c (rest ++ tail) = (l, tail) := by
  cases h with
  | @literal q body _ hq h =>
    refine ⟨q, body, rfl, ?_, ?_, ?_⟩
    · simp only [isQuote, Bool.or_eq_true, beq_iff_eq] at hq
      rcases hq with rfl | rfl <;> decide
    · rintro rfl
      exact absurd hq (by decide)
    · rw [nextLexeme, if_pos hq, h]
  | @multi operator _ h =>
    obtain ⟨c, d, rfl, hc⟩ := length_of_mem_multi h
    have hfind := find_multi_eq_some h tail
    obtain ⟨hquote, hspace, hhash⟩ := symbol_plain (hc.symm.imp_left fun hc => by rw [hc]; rfl)
    refine ⟨c, [d], rfl, hspace, hhash, ?_⟩
    rw [nextLexeme, if_neg (by simp [hquote]), show [d] ++ tail = d :: tail from rfl]
    rw [show [c, d] ++ tail = c :: d :: tail from rfl] at hfind
    rw [hfind]
    rfl
  | @punctuation c _ hc h =>
    obtain ⟨hquote, hspace, hhash⟩ := symbol_plain (.inl hc)
    refine ⟨c, [], rfl, hspace, hhash, ?_⟩
    rw [nextLexeme, if_neg (by simp [hquote]), nil_append, find_multi_eq_none fun d hd => (h d hd).1]
    rw [if_pos hc]
  | @operator c _ hc h =>
    obtain ⟨hquote, hspace, hhash⟩ := symbol_plain (.inr hc)
    have hpunct : isPunctuation c = false := by
      simp only [isOperator, contains_eq_mem, mem_cons, not_mem_nil, or_false, decide_eq_true_eq] at hc
      rcases hc with rfl | rfl | rfl | rfl | rfl | rfl | rfl | rfl | rfl | rfl | rfl | rfl <;> decide
    refine ⟨c, [], rfl, hspace, hhash, ?_⟩
    rw [nextLexeme, if_neg (by simp [hquote]), nil_append, find_multi_eq_none fun d hd => (h d hd).1]
    rw [if_neg (by simp [hpunct]), if_pos hc]
  | @word c w _ hc hw h =>
    obtain ⟨hspace, hpunct, hop, hquote⟩ := hc.ne
    refine ⟨c, w, rfl, hspace, hc.2, ?_⟩
    have hnone : (multi.find? fun operator => operator.isPrefixOf (c :: (w ++ tail))) = none := by
      refine find_multi_eq_none fun d _ hmem => ?_
      obtain ⟨x, y, heq, hx⟩ := length_of_mem_multi hmem
      obtain ⟨rfl, -⟩ := cons.inj heq
      rcases hx with hx | rfl
      · rw [hop] at hx
        cases hx
      · exact absurd hpunct (by decide)
    have hall : ∀ x ∈ w, (!endsWord x) = true := fun x hx => by simp [(hw x hx).1]
    have hstop : tail.takeWhile (!endsWord ·) = [] ∧ tail.dropWhile (!endsWord ·) = tail := by
      cases tail with
      | nil => exact ⟨rfl, rfl⟩
      | cons d rest =>
        have hd : endsWord d = true := by
          by_contra hd
          exact h d (by simp) ⟨by simpa using hd, hcode d (by simp)⟩
        simp [hd]
    rw [nextLexeme, if_neg (by simp [hquote]), hnone]
    rw [if_neg (by simp [hpunct]), if_neg (by simp [hop]), takeWhile_append_of_pos hall,
      dropWhile_append_of_pos hall, hstop.1, hstop.2, append_nil]

/-! ### The lexer -/

theorem quoted_split (delimiter : Char) : ∀ (rest : Text) (escaped : Bool),
    (quoted delimiter escaped rest).1 ++ (quoted delimiter escaped rest).2 = rest := by
  intro rest
  induction rest with
  | nil => exact fun _ => rfl
  | cons c rest ih =>
    intro escaped
    cases escaped with
    | true => simp [quoted, ih]
    | false =>
      simp only [quoted]
      split
      · simp [ih]
      · split
        · rfl
        · simp [ih]

theorem length_nextLexeme (c : Char) (rest : Text) : (nextLexeme c rest).2.length ≤ rest.length := by
  unfold nextLexeme
  split
  · have hlength := congrArg length (quoted_split c rest false)
    rw [length_append] at hlength
    dsimp only
    omega
  · split
    next operator hfind =>
      obtain ⟨x, y, rfl, -⟩ := length_of_mem_multi (mem_of_find?_eq_some hfind)
      simp
    · split
      · exact Nat.le_refl _
      · split
        · exact Nat.le_refl _
        · exact (dropWhile_suffix _).length_le

/-- The bound on the turns does not matter once it is the length. -/
theorem lexFrom_eq (turns : Nat) :
    ∀ {code : Text}, code.length ≤ turns → lexFrom turns code = lex code := by
  have hboth : ∀ (n : Nat) (code : Text), code.length ≤ n → ∀ turns, code.length ≤ turns →
      lexFrom turns code = lex code := by
    intro n
    induction n with
    | zero =>
      intro code hcode turns _
      obtain rfl : code = [] := eq_nil_of_length_eq_zero (by omega)
      cases turns <;> rfl
    | succ n ih =>
      intro code hcode turns hturns
      cases code with
      | nil => cases turns <;> rfl
      | cons c rest =>
        rw [length_cons] at hcode hturns
        obtain ⟨turns, rfl⟩ : ∃ m, turns = m + 1 := ⟨turns - 1, by omega⟩
        have hnext := length_nextLexeme c rest
        rw [lex, length_cons, lexFrom, lexFrom, ih rest (by omega) turns (by omega),
          ih rest (by omega) rest.length (by omega), ih _ (by omega) turns (by omega),
          ih _ (by omega) rest.length (by omega)]
  intro code hcode
  exact hboth code.length code (Nat.le_refl _) turns hcode

theorem lex_blank (h : isWhitespace c = true) : lex (c :: rest) = lex rest := by
  rw [lex, length_cons, lexFrom, if_pos h, lexFrom_eq _ (Nat.le_refl _)]

theorem lex_of_reading (h : Reading l tail)
    (hcode : ∀ d ∈ tail.head?, d ≠ '#') : lex (l.text ++ tail) = l :: lex tail := by
  obtain ⟨c, rest, htext, hspace, -, hnext⟩ := nextLexeme_of_reading h hcode
  rw [htext, cons_append, lex, length_cons, lexFrom, if_neg (by simp [hspace]), hnext]
  have hlength := length_nextLexeme c (rest ++ tail)
  rw [hnext] at hlength
  rw [lexFrom_eq _ hlength]

/-! ### Reading a line -/

/-- The lexemes of a line and the comment at its end, read from left to right. -/
inductive Reads : Text → List Lexeme → Option Text → Prop
  | done : Reads [] [] none
  | comment {line : Text} (h : startsComment line = true) : Reads line [] (some line)
  | blank {c : Char} {rest : Text} {lexemes : List Lexeme} {comment : Option Text}
      (hc : isWhitespace c = true) (h : Reads rest lexemes comment) : Reads (c :: rest) lexemes comment
  | lexeme {l : Lexeme} {tail : Text} {lexemes : List Lexeme} {comment : Option Text}
      (hl : Reading l tail) (h : Reads tail lexemes comment) :
      Reads (l.text ++ tail) (l :: lexemes) comment

theorem startsComment_cons :
    startsComment (c :: rest) = true ↔ c = '#' ∨ (c = '/' ∧ rest.head? = some '/') := by
  by_cases hhash : c = '#'
  · subst hhash
    simp [startsComment]
  · by_cases hslash : c = '/'
    · subst hslash
      cases rest with
      | nil => simp [startsComment]
      | cons d rest =>
        by_cases hd : d = '/'
        · subst hd
          simp [startsComment]
        · simp [startsComment, hd]
    · simp [startsComment, hhash, hslash]

theorem startsComment_eq_false (hhash : c ≠ '#') (hslash : c = '/' → rest.head? ≠ some '/') :
    startsComment (c :: rest) = false := by
  rw [Bool.eq_false_iff, Ne, startsComment_cons]
  rintro (h | ⟨h, hd⟩)
  · exact hhash h
  · exact hslash h hd

theorem reading_exists (hspace : isWhitespace c = false)
    (hcomment : startsComment (c :: rest) = false) :
    ∃ l tail, c :: rest = l.text ++ tail ∧ Reading l tail ∧ tail.length ≤ rest.length := by
  have hnot : ¬ (c = '#' ∨ (c = '/' ∧ rest.head? = some '/')) := by
    rw [← startsComment_cons, hcomment]
    simp
  by_cases hquote : isQuote c = true
  · have hsplit := quoted_split c rest false
    refine ⟨⟨c :: (quoted c false rest).1, .literal⟩, (quoted c false rest).2, ?_, ?_, ?_⟩
    · rw [cons_append, hsplit]
    · exact .literal hquote (by rw [hsplit])
    · have hlength := congrArg length hsplit
      rw [length_append] at hlength
      omega
  by_cases hmulti : ∃ d ∈ rest.head?, [c, d] ∈ multi
  · obtain ⟨d, hd, hmem⟩ := hmulti
    obtain ⟨tail, rfl⟩ : ∃ tail, rest = d :: tail := by
      cases rest with
      | nil => cases hd
      | cons x tail => exact ⟨tail, by rw [Option.mem_some_iff.mp hd]⟩
    exact ⟨⟨[c, d], .operator⟩, tail, rfl, .multi hmem, by simp⟩
  have hfree : Free c rest := by
    intro d hd
    refine ⟨fun hmem => hmulti ⟨d, hd, hmem⟩, ?_⟩
    rintro ⟨rfl, rfl⟩
    exact hnot (.inr ⟨rfl, hd⟩)
  by_cases hpunct : isPunctuation c = true
  · exact ⟨⟨[c], .punctuation⟩, rest, rfl, .punctuation hpunct hfree, Nat.le_refl _⟩
  by_cases hop : isOperator c = true
  · exact ⟨⟨[c], .operator⟩, rest, rfl, .operator hop hfree, Nat.le_refl _⟩
  have hword : InWord c := ⟨by simp [endsWord, hspace, hpunct, hop, hquote], fun h => hnot (.inl h)⟩
  have hdec : ∀ x, Decidable (InWord x) := fun x => by
    unfold InWord
    infer_instance
  refine ⟨⟨c :: rest.takeWhile (fun x => decide (InWord x)), .word⟩,
    rest.dropWhile (fun x => decide (InWord x)), ?_, .word hword ?_ ?_,
    (dropWhile_suffix _).length_le⟩
  · rw [cons_append, takeWhile_append_dropWhile]
  · intro x hx
    simpa using mem_takeWhile_imp hx
  · intro d hd hin
    have hhead := head?_dropWhile_not (fun x => decide (InWord x)) rest
    rw [hd] at hhead
    simp [hin] at hhead

theorem reads_exists (line : Text) : ∃ lexemes comment, Reads line lexemes comment := by
  induction hlength : line.length using Nat.strongRecOn generalizing line with
  | _ n ih =>
    cases line with
    | nil => exact ⟨[], none, .done⟩
    | cons c rest =>
      rw [length_cons] at hlength
      by_cases hcomment : startsComment (c :: rest) = true
      · exact ⟨[], _, .comment hcomment⟩
      by_cases hspace : isWhitespace c = true
      · obtain ⟨lexemes, comment, h⟩ := ih _ (by omega) rest rfl
        exact ⟨lexemes, comment, .blank hspace h⟩
      obtain ⟨l, tail, heq, hl, hshort⟩ :=
        reading_exists (by simpa using hspace) (by simpa using hcomment)
      obtain ⟨lexemes, comment, h⟩ := ih _ (by omega) tail rfl
      exact ⟨l :: lexemes, comment, heq ▸ .lexeme hl h⟩

/-! ### A line that is read is the line that is lexed -/

/-- What a lexeme adds to the depth of braces. -/
def Lexeme.delta (l : Lexeme) : Int := if l.text = ['{'] then 1 else if l.text = ['}'] then -1 else 0

theorem splitCommentFrom_plain (hquote : isQuote c = false)
    (hcomment : startsComment (c :: rest) = false) : splitCommentFrom unquoted (c :: rest) =
      (c :: (splitCommentFrom unquoted rest).1, (splitCommentFrom unquoted rest).2) := by
  have hnext : unquoted.next c = unquoted := by simp [Quoting.next, unquoted, hquote]
  rw [splitCommentFrom, hcomment, hnext]
  rfl

theorem braceDeltaFrom_plain (hquote : isQuote c = false) : braceDeltaFrom unquoted (c :: rest) =
      (if c = '{' then 1 else if c = '}' then -1 else 0) + braceDeltaFrom unquoted rest := by
  have hnext : unquoted.next c = unquoted := by simp [Quoting.next, unquoted, hquote]
  rw [braceDeltaFrom, hnext]
  simp [unquoted]

theorem startsComment_word (h : InWord c) : startsComment (c :: rest) = false := by
  refine startsComment_eq_false h.2 ?_
  rintro rfl
  exact absurd h.ne.2.2.1 (by decide)

theorem scan_word {w : Text} (hw : ∀ x ∈ w, InWord x) (tail : Text) :
    splitCommentFrom unquoted (w ++ tail) =
        (w ++ (splitCommentFrom unquoted tail).1, (splitCommentFrom unquoted tail).2) ∧
      braceDeltaFrom unquoted (w ++ tail) = braceDeltaFrom unquoted tail := by
  induction w with
  | nil => exact ⟨rfl, rfl⟩
  | cons c w ih =>
    have hc := hw c mem_cons_self
    obtain ⟨hsplit, hdelta⟩ := ih fun x hx => hw x (mem_cons_of_mem _ hx)
    have hbrace : c ≠ '{' ∧ c ≠ '}' := by
      constructor <;> rintro rfl <;> exact absurd hc.ne.2.1 (by decide)
    rw [cons_append, splitCommentFrom_plain hc.ne.2.2.2 (startsComment_word hc), hsplit,
      braceDeltaFrom_plain hc.ne.2.2.2, hdelta, if_neg hbrace.1, if_neg hbrace.2]
    exact ⟨rfl, by simp⟩

/-- The two characters of an operator are plain. -/
theorem multi_plain {d : Char} (h : [c, d] ∈ multi) :
    (isQuote c = false ∧ c ≠ '#' ∧ c ≠ '{' ∧ c ≠ '}') ∧ isQuote d = false ∧ d ≠ '#' ∧ d ≠ '/' ∧
      d ≠ '{' ∧ d ≠ '}' := by
  have hall : ∀ operator ∈ multi,
      (operator.head?.all fun c => !isQuote c && c != '#' && c != '{' && c != '}') = true ∧
        (operator.getLast?.all fun d => !isQuote d && d != '#' && d != '/' && d != '{' && d != '}') =
          true := by decide
  simpa [and_assoc] using hall _ h

theorem scan_symbol {kind : Kind} (hc : isPunctuation c = true ∨ isOperator c = true)
    (h : Free c tail) : splitCommentFrom unquoted ([c] ++ tail) =
        ([c] ++ (splitCommentFrom unquoted tail).1, (splitCommentFrom unquoted tail).2) ∧
      braceDeltaFrom unquoted ([c] ++ tail) =
        Lexeme.delta ⟨[c], kind⟩ + braceDeltaFrom unquoted tail := by
  obtain ⟨hquote, -, hhash⟩ := symbol_plain hc
  refine ⟨splitCommentFrom_plain hquote (startsComment_eq_false hhash fun hslash hd =>
    (h '/' hd).2 ⟨hslash, rfl⟩), ?_⟩
  rw [singleton_append, braceDeltaFrom_plain hquote]
  simp [Lexeme.delta]

/-- **Scans over a lexeme.**  The comment is looked for, and the braces are counted, lexeme by lexeme. -/
theorem Reading.scan (h : Reading l tail) : splitCommentFrom unquoted (l.text ++ tail) =
        (l.text ++ (splitCommentFrom unquoted tail).1, (splitCommentFrom unquoted tail).2) ∧
      braceDeltaFrom unquoted (l.text ++ tail) = l.delta + braceDeltaFrom unquoted tail := by
  cases h with
  | @literal q body _ hq h =>
    have hplain : q ≠ '#' ∧ q ≠ '/' ∧ q ≠ '{' ∧ q ≠ '}' := by
      simp only [isQuote, Bool.or_eq_true, beq_iff_eq] at hq
      rcases hq with rfl | rfl <;> decide
    have hcomment : startsComment (q :: (body ++ tail)) = false :=
      startsComment_eq_false hplain.1 fun hq => absurd hq hplain.2.1
    have hnext : unquoted.next q = ⟨some q, false⟩ := by simp [Quoting.next, unquoted, hq]
    obtain ⟨hsplit, hdelta⟩ := scan_quoted q (body ++ tail) false
    rw [h] at hsplit hdelta
    constructor
    · rw [cons_append, splitCommentFrom, hcomment, hnext, hsplit]
      rfl
    · rw [cons_append, braceDeltaFrom, hnext, hdelta]
      simp [Lexeme.delta, hplain]
  | @multi operator _ h =>
    obtain ⟨c, d, rfl, -⟩ := length_of_mem_multi h
    obtain ⟨⟨hquote, hhash, hopen, hclose⟩, hquote', hhash', hslash', hopen', hclose'⟩ := multi_plain h
    have hfirst : startsComment (c :: d :: tail) = false :=
      startsComment_eq_false hhash fun _ hd => hslash' (Option.some.inj hd)
    have hsecond : startsComment (d :: tail) = false :=
      startsComment_eq_false hhash' fun hd => absurd hd hslash'
    constructor
    · show splitCommentFrom unquoted (c :: d :: tail) = _
      rw [splitCommentFrom_plain hquote hfirst, splitCommentFrom_plain hquote' hsecond]
      rfl
    · show braceDeltaFrom unquoted (c :: d :: tail) = _
      rw [braceDeltaFrom_plain hquote, braceDeltaFrom_plain hquote']
      simp [Lexeme.delta, hopen, hclose, hopen', hclose']
  | punctuation hc h => exact scan_symbol (.inl hc) h
  | operator hc h => exact scan_symbol (.inr hc) h
  | @word c w _ hc hw h =>
    have hall : ∀ x ∈ c :: w, InWord x := by
      intro x hx
      rcases mem_cons.mp hx with rfl | hx
      · exact hc
      · exact hw x hx
    obtain ⟨hsplit, hdelta⟩ := scan_word hall tail
    have hbrace : c ≠ '{' ∧ c ≠ '}' := by
      constructor <;> rintro rfl <;> exact absurd hc.ne.2.1 (by decide)
    refine ⟨hsplit, ?_⟩
    rw [hdelta]
    simp [Lexeme.delta, hbrace.1, hbrace.2]

/-- The code of a line begins like the line, unless the line begins with a comment. -/
theorem head_splitComment (line : Text) :
    (splitCommentFrom unquoted line).1.head? = if startsComment line then none else line.head? := by
  cases line with
  | nil => rfl
  | cons c rest =>
    rw [splitCommentFrom]
    cases startsComment (c :: rest) <;> rfl

/-- A lexeme that is read before a text is read before the code of that text. -/
theorem Reading.code (h : Reading l tail) : Reading l (splitCommentFrom unquoted tail).1 ∧
      ∀ d ∈ (splitCommentFrom unquoted tail).1.head?, d ≠ '#' := by
  have hhead : ∀ d ∈ (splitCommentFrom unquoted tail).1.head?, d ∈ tail.head? ∧ d ≠ '#' := by
    intro d hd
    rw [head_splitComment] at hd
    split at hd
    · cases hd
    next hcomment =>
      refine ⟨hd, ?_⟩
      rintro rfl
      cases tail with
      | nil => cases hd
      | cons c rest =>
        obtain rfl := Option.some.inj hd
        exact hcomment (startsComment_cons.mpr (.inl rfl))
  refine ⟨?_, fun d hd => (hhead d hd).2⟩
  cases h with
  | literal hq h =>
    refine .literal hq ?_
    rcases quoted_append h with rfl | hall
    · exact h
    · exact hall _
  | multi h => exact .multi h
  | punctuation hc h => exact .punctuation hc fun d hd => h d (hhead d hd).1
  | operator hc h => exact .operator hc fun d hd => h d (hhead d hd).1
  | word hc hw h => exact .word hc hw fun d hd => h d (hhead d hd).1

/-- **Reading a line.**  The two passes of the formatter give the lexemes and the comment that one pass
from left to right reads, and the braces are those of the lexemes. -/
theorem Reads.eq {line : Text} {lexemes : List Lexeme} {comment : Option Text}
    (h : Reads line lexemes comment) :
    lex (splitComment line).1 = lexemes ∧ (splitComment line).2 = comment ∧
      braceDelta line = (lexemes.map Lexeme.delta).sum := by
  unfold braceDelta splitComment
  induction h with
  | done => exact ⟨rfl, rfl, rfl⟩
  | @comment line h =>
    have hsplit : splitCommentFrom unquoted line = ([], some line) := by
      cases line with
      | nil => cases h
      | cons c rest =>
        rw [splitCommentFrom, h]
        rfl
    rw [hsplit]
    exact ⟨rfl, rfl, rfl⟩
  | @blank c rest lexemes comment hc h ih =>
    obtain ⟨hquote, hhash, hslash, hopen, hclose, -⟩ := whitespace_plain hc
    rw [splitCommentFrom_plain hquote (startsComment_eq_false hhash fun h => absurd h hslash)]
    rw [lex_blank hc, braceDeltaFrom_plain hquote, if_neg hopen, if_neg hclose, Int.zero_add]
    exact ih
  | @lexeme l tail lexemes comment hl h ih =>
    obtain ⟨hcode, hhash⟩ := hl.code
    rw [hl.scan.1]
    rw [lex_of_reading hcode hhash, hcode.scan.2, ih.1, ih.2.1, ih.2.2, map_cons]
    exact ⟨rfl, rfl, rfl⟩

end Axiomc.Formatter
