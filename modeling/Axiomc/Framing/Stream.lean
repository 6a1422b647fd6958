import Axiomc.Foundation.Coupling
import Axiomc.Framing.Reader

/-!
# The reader and the chunks of its input

What `read_message` does is determined by the bytes still to read, not by the chunks they come in, with
one exception.  `headerLine` and `afterLine` say what `read_header_line` returns and leaves in terms of
the bytes (`readLineFrom_eq`).  The line limit is checked before a chunk is consumed, so a line that is
too long is refused in every chunking, but the chunks before the last one looked at are gone by then.
After that error, and after no other, the position depends on the chunks.

`readMessage_chunkFree` runs the reader on two inputs with the same bytes.  `session_upTo`: successive
calls give the same results up to and including the first line that is too long, and
`session_depends_on_chunks` shows that they need not agree any further.
-/

namespace Axiomc.Framing

open Foundation List Option

/-! ### One line -/

/-- What `read_header_line` returns for the bytes to read. -/
def headerLine (protocol : String) (bytes : Bytes) : Except Diagnostic (Option Bytes) :=
  match bytes.findIdx? (· == 10) with
  | some n =>
    if n + 1 > maxHeaderLineBytes then .error (headerLineOversized protocol)
    else .ok (some (bytes.take (n + 1)))
  | none =>
    if bytes.isEmpty then .ok none
    else if bytes.length > maxHeaderLineBytes then .error (headerLineOversized protocol)
    else
      .error (frameError protocol "truncated_header" ("truncated " ++ protocol ++ " header line"))

/-- What it leaves, unless the line is too long. -/
def afterLine (bytes : Bytes) : Bytes :=
  match bytes.findIdx? (· == 10) with
  | some n => bytes.drop (n + 1)
  | none => []

/-- The first line feed after a part without one. -/
theorem findIdx?_append_newline {line bytes : Bytes} (hline : (10 : UInt8) ∉ line) :
    (line ++ bytes).findIdx? (· == 10) = (bytes.findIdx? (· == 10)).map (· + line.length) := by
  have hnone : line.findIdx? (· == 10) = none := by
    rw [findIdx?_eq_none_iff]
    intro b hb
    rw [beq_eq_false_iff_ne]
    rintro rfl
    exact hline hb
  rw [findIdx?_append, hnone, none_or]

/-- A beginning that is too long and has no line feed makes every continuation too long. -/
theorem headerLine_of_long {protocol : String} {start rest : Bytes}
    (hstart : (10 : UInt8) ∉ start) (hlong : maxHeaderLineBytes < start.length) :
    headerLine protocol (start ++ rest) = .error (headerLineOversized protocol) := by
  unfold headerLine
  rw [findIdx?_append_newline hstart]
  cases h : rest.findIdx? (· == 10) with
  | some n =>
    have hlate : n + start.length + 1 > maxHeaderLineBytes := by omega
    simp only [map_some, hlate, if_true]
  | none =>
    have hne : (start ++ rest).isEmpty = false := by
      rw [isEmpty_eq_false_iff]
      intro hnil
      rw [(append_eq_nil_iff.mp hnil).1] at hlong
      simp at hlong
    have hlen : (start ++ rest).length > maxHeaderLineBytes := by
      rw [length_append]
      omega
    simp only [map_none, hne, Bool.false_eq_true, if_false, hlen, if_true]

/-- **One header line.**  The result depends on the bytes only, and so does what is left unless the
line is too long.  The induction is on the chunks, with the part of the line read so far. -/
theorem readLineFrom_eq (protocol : String) (input : Input) :
    ∀ line : Bytes, (10 : UInt8) ∉ line → line.length ≤ maxHeaderLineBytes →
      (readLineFrom protocol line input).1 = headerLine protocol (line ++ contents input) ∧
        ((readLineFrom protocol line input).1 ≠ .error (headerLineOversized protocol) →
          contents (readLineFrom protocol line input).2 = afterLine (line ++ contents input)) := by
  induction input with
  | nil =>
    intro line hline hlen
    have hnone : (line ++ contents []).findIdx? (· == 10) = none := by
      rw [findIdx?_append_newline hline]
      rfl
    simp only [readLineFrom, headerLine, afterLine, hnone]
    rw [contents_nil, append_nil, if_neg (Nat.not_lt.mpr hlen)]
    split
    · exact ⟨rfl, fun _ => rfl⟩
    · exact ⟨rfl, fun _ => rfl⟩
  | cons buffer rest ih =>
    intro line hline hlen
    cases hnewline : buffer.val.findIdx? (· == 10) with
    | some n =>
      obtain ⟨before, after, hsplit, hbefore, rfl⟩ := findIdx?_eq_some_iff_append.mp hnewline
      have hfirst : (line ++ contents (buffer :: rest)).findIdx? (· == 10) =
          some (before.length + line.length) := by
        rw [findIdx?_append_newline hline, contents_cons, findIdx?_append, hnewline]
        rfl
      have hle : before.length + 1 ≤ buffer.val.length := by
        rw [hsplit, length_append, length_cons]
        omega
      simp only [readLineFrom, headerLine, afterLine, hnewline, hfirst, elim_some]
      rw [show line.length + (before.length + 1) = before.length + line.length + 1 by omega]
      split
      · exact ⟨rfl, fun h => absurd rfl h⟩
      · refine ⟨?_, fun _ => ?_⟩
        · rw [contents_cons, show before.length + line.length + 1 = line.length + (before.length + 1)
            by omega, take_length_add_append, take_append_of_le_length hle]
        · rw [contents_consume rest hle, show before.length + line.length + 1 =
            line.length + (before.length + 1) by omega, drop_length_add_append]
    | none =>
      have hbuffer : (10 : UInt8) ∉ buffer.val := by
        intro hmem
        have hfree := findIdx?_eq_none_iff.mp hnewline 10 hmem
        simp at hfree
      have hboth : (10 : UInt8) ∉ line ++ buffer.val := by
        rw [mem_append, not_or]
        exact ⟨hline, hbuffer⟩
      simp only [readLineFrom, hnewline, elim_none]
      split
      next hlong =>
        refine ⟨?_, fun h => absurd rfl h⟩
        rw [contents_cons, ← append_assoc]
        exact (headerLine_of_long hboth (by rw [length_append]; omega)).symm
      next hshort =>
        rw [contents_cons, ← append_assoc]
        exact ih (line ++ buffer.val) hboth (by rw [length_append]; omega)

/-! ### The body -/

theorem readExact_eq : ∀ (amount : Nat) (input : Input), (readExact amount input).1 =
        (if amount ≤ (contents input).length then some ((contents input).take amount) else none) ∧
      contents (readExact amount input).2 = (contents input).drop amount := by
  intro amount input
  induction input generalizing amount with
  | nil =>
    cases amount with
    | zero => exact ⟨rfl, rfl⟩
    | succ amount => exact ⟨rfl, rfl⟩
  | cons chunk rest ih =>
    cases amount with
    | zero => exact ⟨by simp [readExact], rfl⟩
    | succ amount =>
      rw [readExact]
      split
      next hinside =>
        refine ⟨?_, contents_consume rest (by omega)⟩
        rw [contents_cons, if_pos (by rw [length_append]; omega), take_append_of_le_length (by omega)]
      next hoverlap =>
        obtain ⟨hresult, hrest⟩ := ih (amount + 1 - chunk.val.length)
        obtain ⟨more, hmore⟩ : ∃ more, amount + 1 = chunk.val.length + more :=
          ⟨amount + 1 - chunk.val.length, by omega⟩
        have hleft : amount + 1 - chunk.val.length = more := by omega
        rw [hleft] at hresult hrest ⊢
        dsimp only
        constructor
        · rw [hresult, contents_cons, hmore, take_length_add_append, length_append]
          by_cases henough : more ≤ (contents rest).length
          · rw [if_pos henough, if_pos (by omega), map_some]
          · rw [if_neg henough, if_neg (by omega), map_none]
        · rw [hrest, contents_cons, hmore, drop_length_add_append]

/-! ### Two inputs with the same bytes -/

/-- Errors agree, and the bytes left do too unless a line was too long. -/
def ErrorsAgree (protocol : String) (e e' : Diagnostic) (input input' : Input) : Prop :=
  e = e' ∧ (e ≠ headerLineOversized protocol → contents input = contents input')

/-- Two computations that cannot tell inputs with the same bytes apart. -/
def ChunkFree (protocol : String) {α : Type} (m m' : Fallible Diagnostic Input α) : Prop :=
  ∀ input input', contents input = contents input' →
    Coupled m m' (fun a b t t' => a = b ∧ contents t = contents t') (ErrorsAgree protocol) input input'

namespace ChunkFree

variable {protocol : String} {α β : Type}

theorem pure (a : α) : ChunkFree protocol (Pure.pure a) (Pure.pure a) := fun _ _ h => ⟨rfl, h⟩

theorem throw (e : Diagnostic) :
    ChunkFree protocol (MonadExcept.throw e : Fallible Diagnostic Input α) (MonadExcept.throw e) :=
  fun _ _ h => ⟨rfl, fun _ => h⟩

theorem bind {m m' : Fallible Diagnostic Input α} {f f' : α → Fallible Diagnostic Input β}
    (hm : ChunkFree protocol m m') (hf : ∀ a, ChunkFree protocol (f a) (f' a)) :
    ChunkFree protocol (m >>= f) (m' >>= f') := by
  intro input input' h
  refine (hm input input' h).bind ?_
  intro a b t t' hab
  rw [← hab.1]
  exact hf a t t' hab.2

theorem fromResult (x : Except Diagnostic α) :
    ChunkFree protocol (Framing.fromResult x) (Framing.fromResult x) := by
  cases x with
  | ok a => exact pure a
  | error e => exact throw e

end ChunkFree

section

variable (protocol : String)

theorem readHeaderLine_chunkFree :
    ChunkFree protocol (readHeaderLine protocol) (readHeaderLine protocol) := by
  intro input input' h
  have hnil : (10 : UInt8) ∉ ([] : Bytes) := not_mem_nil
  obtain ⟨hresult, hleft⟩ := readLineFrom_eq protocol input [] hnil (Nat.zero_le _)
  obtain ⟨hresult', hleft'⟩ := readLineFrom_eq protocol input' [] hnil (Nat.zero_le _)
  rw [← h, ← hresult] at hresult'
  rw [← h] at hleft'
  unfold Coupled
  rw [exec_readHeaderLine, exec_readHeaderLine]
  generalize readLineFrom protocol [] input = x, readLineFrom protocol [] input' = y at *
  obtain ⟨r, t⟩ := x
  obtain ⟨r', t'⟩ := y
  obtain rfl : r' = r := hresult'
  cases r' with
  | ok a => exact ⟨rfl, (hleft (by simp)).trans (hleft' (by simp)).symm⟩
  | error e =>
    refine ⟨rfl, fun he => ?_⟩
    have hother : (Except.error e : Except Diagnostic (Option Bytes)) ≠
        .error (headerLineOversized protocol) := fun heq => he (Except.error.inj heq)
    exact (hleft hother).trans (hleft' hother).symm

theorem readBody_chunkFree (length : Nat) :
    ChunkFree protocol (readBody length) (readBody length) := by
  intro input input' h
  obtain ⟨hresult, hleft⟩ := readExact_eq length input
  obtain ⟨hresult', hleft'⟩ := readExact_eq length input'
  rw [← h] at hresult' hleft'
  exact ⟨hresult.trans hresult'.symm, hleft.trans hleft'.symm⟩

theorem readHeaders_chunkFree (host : Host) (allowed : Nat) : ∀ headerBytes contentLength rawLine,
      ChunkFree protocol (readHeaders host protocol allowed headerBytes contentLength rawLine)
        (readHeaders host protocol allowed headerBytes contentLength rawLine) := by
  induction allowed using Nat.strongRecOn with
  | _ allowed ih =>
    intro headerBytes contentLength rawLine
    rw [readHeaders]
    split
    · exact ChunkFree.throw _
    refine (ChunkFree.fromResult _).bind fun trimmed => ?_
    split
    · exact ChunkFree.pure _
    cases allowed with
    | zero => exact ChunkFree.throw _
    | succ allowed =>
      refine (ChunkFree.fromResult _).bind fun contentLength => ?_
      refine (readHeaderLine_chunkFree protocol).bind fun next => ?_
      cases next with
      | none => exact ChunkFree.throw _
      | some nextLine =>
        dsimp only
        split
        · exact ChunkFree.throw _
        · exact ih allowed (Nat.lt_succ_self _) _ _ _

theorem readBodyText_chunkFree (host : Host) (contentLength : Option Nat) :
    ChunkFree protocol (readBodyText host protocol contentLength)
      (readBodyText host protocol contentLength) := by
  unfold readBodyText
  cases contentLength with
  | none => exact ChunkFree.throw _
  | some length =>
    dsimp only
    split
    · exact ChunkFree.throw _
    refine (readBody_chunkFree protocol length).bind fun body => ?_
    cases body with
    | none => exact ChunkFree.throw _
    | some body =>
      dsimp only
      split
      · exact ChunkFree.pure _
      · exact ChunkFree.throw _

/-- **One call.**  On inputs with the same bytes it has the same result and, unless a header line was
too long, leaves the same bytes. -/
theorem readMessage_chunkFree (host : Host) :
    ChunkFree protocol (readMessage host protocol) (readMessage host protocol) := by
  refine (readHeaderLine_chunkFree protocol).bind fun first => ?_
  cases first with
  | none => exact ChunkFree.pure _
  | some firstLine =>
    refine (readHeaders_chunkFree protocol host _ _ _ _).bind fun contentLength => ?_
    exact readBodyText_chunkFree protocol host contentLength

end

/-! ### Successive calls -/

/-- The results up to and including the first header line that is too long. -/
def upToOversized (protocol : String) :
    List (Except Diagnostic (Option Text)) → List (Except Diagnostic (Option Text))
  | [] => []
  | result :: rest =>
    if result = .error (headerLineOversized protocol) then [result]
    else result :: upToOversized protocol rest

/-- **Sessions.**  Successive calls do not depend on the chunks, up to and including the first header
line that is too long. -/
theorem session_upTo (host : Host) (protocol : String) (calls : Nat) :
    ∀ input input' : Input, contents input = contents input' →
      upToOversized protocol (session host protocol calls input) =
        upToOversized protocol (session host protocol calls input') := by
  induction calls with
  | zero => exact fun _ _ _ => rfl
  | succ calls ih =>
    intro input input' h
    have hcall := readMessage_chunkFree protocol host input input' h
    unfold Coupled at hcall
    simp only [session, upToOversized]
    generalize exec (readMessage host protocol) input = x,
      exec (readMessage host protocol) input' = y at hcall ⊢
    obtain ⟨r, t⟩ := x
    obtain ⟨r', t'⟩ := y
    cases r with
    | ok a =>
      cases r' with
      | error e' => exact hcall.elim
      | ok b =>
        obtain ⟨rfl, hleft⟩ := hcall
        rw [if_neg (by simp), if_neg (by simp), ih t t' hleft]
    | error e =>
      cases r' with
      | ok b => exact hcall.elim
      | error e' =>
        obtain ⟨rfl, hleft⟩ := hcall
        by_cases hlong : e = headerLineOversized protocol
        · rw [if_pos (by rw [hlong]), if_pos (by rw [hlong])]
        · have hother : (Except.error e : Except Diagnostic (Option Text)) ≠
              .error (headerLineOversized protocol) := fun heq => hlong (Except.error.inj heq)
          rw [if_neg hother, if_neg hother, ih t t' (hleft hlong)]

/-! ### After a line that is too long -/

/-- A chunk of `n + 1` bytes without a line feed. -/
def filler (n : Nat) : Chunk := ⟨replicate (n + 1) 120, by simp⟩

theorem filler_val (n : Nat) : (filler n).val = replicate (n + 1) 120 := rfl

theorem findIdx?_filler (n : Nat) : (filler n).val.findIdx? (· == 10) = none := by
  rw [findIdx?_eq_none_iff]
  intro b hb
  obtain rfl : b = 120 := eq_of_mem_replicate hb
  rfl

theorem readLineFrom_filler (protocol : String) (line : Bytes) (n : Nat) (rest : Input) :
    readLineFrom protocol line (filler n :: rest) =
      if line.length + (n + 1) > maxHeaderLineBytes then
        (.error (headerLineOversized protocol), filler n :: rest)
      else readLineFrom protocol (line ++ (filler n).val) rest := by
  have hlength : (filler n).val.length = n + 1 := length_replicate
  rw [readLineFrom]
  simp [findIdx?_filler, hlength]

/-- A call that does not get its first line ends there. -/
theorem exec_readMessage_error {host : Host} {protocol : String} {input input' : Input}
    {e : Diagnostic} (h : readLineFrom protocol [] input = (.error e, input')) :
    exec (readMessage host protocol) input = (.error e, input') := by
  simp only [readMessage, exec_bind, exec_readHeaderLine, h]

/-- **The chunks show.**  One byte more than a header line may have, in one chunk and in two: the
second call finds the whole line again, or only its last byte. -/
theorem session_depends_on_chunks : contents [filler 8192] = contents [filler 8191, filler 0] ∧
      ∀ host : Host, session host "lsp" 2 [filler 8192] ≠ session host "lsp" 2 [filler 8191, filler 0] := by
  constructor
  · simp only [contents_cons, contents_nil, append_nil, filler_val, replicate_append_replicate]
  · intro host
    have hone : readLineFrom "lsp" [] [filler 8192] =
        (.error (headerLineOversized "lsp"), [filler 8192]) := by
      rw [readLineFrom_filler, if_pos (by decide)]
    have htwo : readLineFrom "lsp" [] [filler 8191, filler 0] =
        (.error (headerLineOversized "lsp"), [filler 0]) := by
      have hlength : ([] ++ (filler 8191).val).length = 8192 := length_replicate
      rw [readLineFrom_filler, if_neg (by decide), readLineFrom_filler, hlength, if_pos (by decide)]
    have hlast : readLineFrom "lsp" [] [filler 0] =
        (.error (frameError "lsp" "truncated_header" "truncated lsp header line"), []) := by
      rfl
    simp only [session, exec_readMessage_error hone, exec_readMessage_error htwo,
      exec_readMessage_error hlast]
    decide

end Axiomc.Framing
