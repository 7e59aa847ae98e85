import Mathlib
import TraceScript.Compile
import TraceScript.Proofs.SpanOrder

/-!
Reading goes line by line: no lexeme reaches beyond a newline, so the lexemes of a text are those of
its lines. This gives the tokens of a text in which one line is a literal too long to be written out.
-/
namespace TraceScript

open Source (place)

namespace Lexeme

/-- What is read of two texts that agree up to a newline, where the first ends and the second goes
on. -/
structure Continues (n : Glyph) (more : List Glyph) (l l' : Lexeme) : Prop where
  result : l'.result = l.result
  span : l'.span = l.span
  rest : l'.rest = l.rest ++ more
  stop : l.rest = [] ∨ ∃ r, l.rest = r ++ [n]

variable {n g : Glyph} {more : List Glyph}

theorem continues_upTo (result : Except LexicalError Token) (start last : Position)
    (gs : List Glyph) : Continues n more (upTo result start last (gs ++ [n]))
      (upTo result start last (gs ++ n :: more)) :=
  ⟨rfl, rfl, List.append_cons gs n more, .inr ⟨gs, rfl⟩⟩

theorem continues_after (result : Except LexicalError Token) (start last : Position) :
    Continues n more (upTo result start last []) (upTo result start last more) :=
  ⟨rfl, rfl, rfl, .inl rfl⟩

theorem continues_withEqual (hn : n.char = '\n') (last : Position) (eq otherwise : Token)
    (gs : List Glyph) : Continues n more (withEqual g last (gs ++ [n]) eq otherwise)
      (withEqual g last (gs ++ n :: more) eq otherwise) := by
  cases gs with
  | nil =>
    have hne : n.char ≠ '=' := by rw [hn]; decide
    simp only [withEqual, List.nil_append, if_neg hne]
    exact continues_upTo _ _ _ []
  | cons e gs =>
    simp only [withEqual, List.cons_append]
    split
    · exact continues_upTo _ _ _ gs
    · exact continues_upTo _ _ _ (e :: gs)

theorem continues_angle (hn : n.char = '\n') (hg : g.char ≠ '\n') (shift : ArithOp)
    (orEqual strict : CompareOp) (gs : List Glyph) :
    Continues n more (angle g (gs ++ [n]) shift orEqual strict)
      (angle g (gs ++ n :: more) shift orEqual strict) := by
  cases gs with
  | nil =>
    simp only [angle, List.nil_append, if_neg (hn ▸ hg.symm)]
    exact continues_withEqual hn _ _ _ []
  | cons e gs =>
    simp only [angle, List.cons_append]
    split
    · exact continues_withEqual hn _ _ _ gs
    · exact continues_withEqual hn _ _ _ (e :: gs)

theorem continues_inequality (hn : n.char = '\n') (gs : List Glyph) :
    Continues n more (inequality g (gs ++ [n])) (inequality g (gs ++ n :: more)) := by
  cases gs with
  | nil =>
    have hne : n.char ≠ '=' := by rw [hn]; decide
    simp only [inequality, List.nil_append, if_neg hne]
    exact continues_upTo _ _ _ []
  | cons e gs =>
    simp only [inequality, List.cons_append]
    split
    · exact continues_upTo _ _ _ gs
    · exact continues_upTo _ _ _ (e :: gs)

theorem span_line {f : Glyph → Bool} (hf : f n = false) (gs : List Glyph) :
    (∀ more, (gs ++ n :: more).takeWhile f = gs.takeWhile f) ∧
      ∃ r, ∀ more, (gs ++ n :: more).dropWhile f = r ++ n :: more := by
  induction gs with
  | nil => exact ⟨fun _ => by simp [hf], [], fun _ => by simp [hf]⟩
  | cons g gs ih =>
    obtain ⟨htake, r, hdrop⟩ := ih
    cases hg : f g with
    | true => exact ⟨fun _ => by simp [hg, htake], r, fun _ => by simp [hg, hdrop]⟩
    | false => exact ⟨fun _ => by simp [hg], g :: gs, fun _ => by simp [hg]⟩

theorem continues_number (hn : n.char = '\n') (gs : List Glyph) :
    Continues n more (number g (gs ++ [n])) (number g (gs ++ n :: more)) := by
  obtain ⟨htake, r, hdrop⟩ := span_line (f := (isDigit ·.char)) (by rw [hn]; decide) gs
  simp only [number, htake, hdrop]
  exact continues_upTo _ _ _ r

theorem continues_word (hn : n.char = '\n') (gs : List Glyph) :
    Continues n more (word g (gs ++ [n])) (word g (gs ++ n :: more)) := by
  obtain ⟨htake, r, hdrop⟩ :=
    span_line (f := fun h => isLetter h.char || isDigit h.char) (by rw [hn]; decide) gs
  simp only [word, htake, hdrop]
  exact continues_upTo _ _ _ r

theorem continues_text (hn : n.char = '\n') (start last : Position) (seen : List Char)
    (gs : List Glyph) : Continues n more (text start last seen (gs ++ [n]))
      (text start last seen (gs ++ n :: more)) := by
  induction hk : gs.length using Nat.strongRecOn generalizing last seen gs with
  | ind k ih =>
    subst hk
    cases gs with
    | nil =>
      rw [List.nil_append, List.nil_append, text_newline hn, text_newline hn]
      exact continues_after _ _ _
    | cons g gs =>
      rw [List.cons_append, List.cons_append]
      by_cases hnewline : g.char = '\n'
      · rw [text_newline hnewline, text_newline hnewline]
        exact continues_upTo _ _ _ gs
      by_cases hquote : g.char = '\x22'
      · rw [text_quote hquote, text_quote hquote]
        exact continues_upTo _ _ _ gs
      by_cases hescape : g.char = '\\'
      · cases gs with
        | nil =>
          have hnone : unescape n.char = none := by rw [hn]; decide
          rw [List.nil_append, List.nil_append, text_badEscape hescape hnone,
            text_badEscape hescape hnone]
          exact continues_after _ _ _
        | cons e gs =>
          rw [List.cons_append, List.cons_append]
          cases he : unescape e.char with
          | none =>
            rw [text_badEscape hescape he, text_badEscape hescape he]
            exact continues_upTo _ _ _ gs
          | some c =>
            rw [text_escape hescape he, text_escape hescape he]
            exact ih gs.length (by simp only [List.length_cons]; omega) _ _ gs rfl
      · rw [text_raw hnewline hquote hescape, text_raw hnewline hquote hescape]
        exact ih gs.length (Nat.lt_succ_self _) _ _ gs rfl

theorem continues_scan (hn : n.char = '\n') (hg : g.char ≠ '\n') (gs : List Glyph) :
    Continues n more (scan g (gs ++ [n])) (scan g (gs ++ n :: more)) := by
  unfold scan
  dsimp only
  split
  case h_18 | h_19 => exact continues_angle hn hg _ _ _ gs
  case h_20 => exact continues_inequality hn gs
  case h_21 => exact continues_text hn _ _ _ gs
  case h_22 =>
    split
    · exact continues_number hn gs
    · split
      · exact continues_word hn gs
      · exact continues_upTo _ _ _ gs
  case h_1 | h_2 | h_3 | h_4 | h_5 | h_6 | h_7 | h_8 => exact continues_upTo _ _ _ gs
  all_goals exact continues_withEqual hn _ _ _ gs

end Lexeme

namespace Token

/-- What skipping leaves of some glyphs before a newline, whatever follows it: nothing, or an end of
them that begins with no newline. -/
def SkipsLine (n : Glyph) (length : Nat) (skip : List Glyph → List Glyph) : Prop :=
  (∀ more, skip more = skipBlank more) ∨ ∃ g r, g.char ≠ '\n' ∧ r.length < length ∧
    ∀ more, skip more = g :: (r ++ n :: more)

theorem SkipsLine.succ {n : Glyph} {length : Nat} {skip : List Glyph → List Glyph}
    (h : SkipsLine n length skip) : SkipsLine n (length + 1) skip := by
  rcases h with h | ⟨g, r, hg, hr, h⟩
  · exact .inl h
  · exact .inr ⟨g, r, hg, Nat.lt_succ_of_lt hr, h⟩

theorem skip_line {n : Glyph} (hn : n.char = '\n') (gs : List Glyph) :
    SkipsLine n gs.length (fun more => skipBlank (gs ++ n :: more)) ∧
      SkipsLine n gs.length fun more => skipComment (gs ++ n :: more) := by
  have hblank : Text.isBlank n.char = true := by rw [hn]; decide
  induction gs with
  | nil =>
    simp only [List.nil_append, skipBlank, skipComment, if_pos hblank, if_pos hn]
    exact ⟨.inl fun _ => rfl, .inl fun _ => rfl⟩
  | cons g gs ih =>
    simp only [List.cons_append, skipBlank, skipComment, List.length_cons]
    refine ⟨?_, ?_⟩
    · by_cases hg : Text.isBlank g.char
      · simp only [if_pos hg]
        exact ih.1.succ
      · simp only [if_neg hg]
        -- The next character tells whether a comment opens, and it is the newline at the latest.
        have hopens : ∀ more, opensComment g (gs ++ n :: more) = opensComment g (gs ++ [n]) := by
          intro more
          cases gs <;> rfl
        simp only [hopens]
        by_cases hopen : opensComment g (gs ++ [n]) = true
        · simp only [if_pos hopen]
          exact ih.2.succ
        · simp only [if_neg hopen]
          refine .inr ⟨g, gs, ?_, Nat.lt_succ_self _, fun _ => rfl⟩
          intro hnewline
          exact hg (by rw [hnewline]; decide)
    · by_cases hg : g.char = '\n'
      · simp only [if_pos hg]
        exact ih.1.succ
      · simp only [if_neg hg]
        exact ih.2.succ

/-- What the lexemes of a text say, without the rest after each. -/
def readings (gs : List Glyph) : List (Except LexicalError Token × Span) :=
  (lexemes gs).map fun l => (l.result, l.span)

theorem readings_line {n : Glyph} (hn : n.char = '\n') (gs more : List Glyph) :
    readings (gs ++ n :: more) = readings (gs ++ [n]) ++ readings more := by
  induction hk : gs.length using Nat.strongRecOn generalizing gs with
  | ind k ih =>
    subst hk
    rcases (skip_line hn gs).1 with hskip | ⟨g, r, hg, hr, hskip⟩
    · have hnone : lexemes (gs ++ [n]) = [] := lexemes_of_nil ((hskip []).trans rfl)
      rw [readings, lexemes_congr (hskip more), readings, hnone]
      rfl
    · have hscan : Lexeme.Continues n more _ _ := Lexeme.continues_scan hn hg r
      obtain ⟨hresult, hspan, hrest, hstop⟩ := hscan
      have hlength := Lexeme.scan_rest_length g (r ++ [n])
      simp only [readings, lexemes_of_cons (hskip more), lexemes_of_cons (hskip []), List.map_cons,
        List.cons_append, hresult, hspan, hrest]
      refine congrArg (_ :: ·) ?_
      rcases hstop with hstop | ⟨r', hstop⟩
      · have hnone : lexemes [] = [] := lexemes_of_nil rfl
        rw [hstop, hnone]
        rfl
      · rw [hstop] at hlength ⊢
        rw [List.append_assoc]
        exact ih r'.length (by simp at hlength; omega) r' rfl

theorem errors_eq (gs : List Glyph) : errors (lexemes gs) = (readings gs).filterMap fun x =>
    match x.1 with
    | .error e => some ⟨e, x.2⟩
    | .ok _ => none := by
  rw [readings, List.filterMap_map]
  rfl

theorem tokens_eq (gs : List Glyph) : tokens (lexemes gs) = (readings gs).filterMap fun x =>
    match x.1 with
    | .ok t => some ⟨t, x.2⟩
    | .error _ => none := by
  rw [readings, List.filterMap_map]
  rfl

theorem place_line {cs : List Char} (h : '\n' ∉ cs) (p : Position) : ∃ n : Glyph, n.char = '\n' ∧
    ∀ ds, place p (cs ++ '\n' :: ds) = place p cs ++ n :: place ⟨p.line + 1, 1⟩ ds := by
  induction cs generalizing p with
  | nil => exact ⟨⟨'\n', p⟩, rfl, fun _ => rfl⟩
  | cons c cs ih =>
    rw [List.mem_cons, not_or] at h
    obtain ⟨n, hn, hplace⟩ := ih h.2 (p.after c)
    refine ⟨n, hn, fun ds => ?_⟩
    rw [List.cons_append, place, hplace, (p.leftOf_after (Ne.symm h.1)).1]
    rfl

theorem readings_place {cs : List Char} (h : '\n' ∉ cs) (p : Position) (ds : List Char) :
    readings (place p (cs ++ '\n' :: ds)) =
      readings (place p (cs ++ ['\n'])) ++ readings (place ⟨p.line + 1, 1⟩ ds) := by
  obtain ⟨n, hn, hplace⟩ := place_line h p
  rw [hplace, hplace]
  exact readings_line hn _ _

/-- The tokens of a line that has a given number. -/
def ofLine (number : Nat) (line : String) : List (Located Token) :=
  tokens (lexemes (place ⟨number, 1⟩ (line.toList ++ ['\n'])))

end Token

/-- A text of characters that take four bytes each. -/
def wideText (n : Nat) : String := String.ofList (List.replicate n '😀')

/-- The same text for evaluation, which does not write it out. -/
noncomputable def sealedText (n : Nat) : { s // s = wideText n } := Classical.choice ⟨⟨_, rfl⟩⟩

theorem length_utf8_wideText (n : Nat) : (Text.utf8 (wideText n)).length = 4 * n := by
  have hchar : (String.utf8EncodeChar '😀').length = 4 := by decide
  rw [Text.utf8, wideText, String.toList_ofList, List.length_flatMap, List.map_replicate,
    List.sum_replicate, hchar, smul_eq_mul, Nat.mul_comm]

theorem Annotate.expression_sealed {n : Nat} (h : Nonempty { s // s = wideText n }) (tag : Tag) :
    expression (.text tag (Classical.choice h).1) =
      pure (.text (retag tag (.ofShape ⟨.str, align8 (4 * n + 1)⟩ .stack)) (Classical.choice h).1) := by
  rw [expression, (Classical.choice h).2, length_utf8_wideText]

theorem Lexeme.text_wide (start last q : Position) (seen : List Char) (n : Nat) (more : List Char) :
    text start last seen (place q (List.replicate n '😀' ++ '\x22' :: more)) =
      upTo (.ok (.text (String.ofList (seen.reverse ++ List.replicate n '😀')))) start
        ⟨q.line, q.column + n⟩ (place ⟨q.line, q.column + n + 1⟩ more) := by
  induction n generalizing last q seen with
  | zero =>
    rw [List.replicate_zero, List.nil_append, place, text_quote rfl, List.append_nil]
    rfl
  | succ n ih =>
    have hseen : ('😀' :: seen).reverse ++ List.replicate n '😀' =
        seen.reverse ++ List.replicate (n + 1) '😀' := by
      rw [List.reverse_cons, List.append_assoc]
      rfl
    have hcolumn : q.column + 1 + n = q.column + (n + 1) := by omega
    rw [List.replicate_succ, List.cons_append, place,
      text_raw (by decide : '😀' ≠ '\n') (by decide : '😀' ≠ '\x22') (by decide : '😀' ≠ '\\'), ih,
      hseen]
    exact congrArg (fun k => upTo _ start ⟨q.line, k⟩ (place ⟨q.line, k + 1⟩ more)) hcolumn

namespace Source

/-- A script of three lines, of which the second is a literal. -/
def around (before : String) (literal : String) (after : String) : Source where
  name := "overrun"
  lines := [before, "\"" ++ literal ++ "\"", after]

theorem around_fits {before after : String} {n : Nat}
    (h : (before.toList.map width).sum + n + (after.toList.map width).sum + 6 < UInt32.size) :
    (around before (wideText n) after).fits = true := by
  refine fits_of_width _ ?_
  have hquote : width '\x22' = 1 := by decide
  have hnewline : width '\n' = 1 := by decide
  have hwide : width '😀' = 1 := by decide
  rw [glyphs, Token.map_char_place]
  simp [around, wideText, hquote, hnewline, hwide]
  omega

end Source

namespace Token

theorem readings_wide (k n : Nat) :
    readings (place ⟨k, 1⟩ (("\"" ++ wideText n ++ "\"").toList ++ ['\n'])) =
      [(.ok (.text (wideText n)), ⟨⟨k, 1⟩, ⟨k, n + 3⟩⟩)] := by
  have hline : ("\"" ++ wideText n ++ "\"").toList ++ ['\n'] =
      '\x22' :: (List.replicate n '😀' ++ '\x22' :: ['\n']) := by
    simp [wideText]
  have hafter : Position.after ⟨k, 1⟩ '\x22' = ⟨k, 2⟩ := rfl
  rw [hline, place, hafter]
  have hskip : ∀ rest, skipBlank (⟨'\x22', ⟨k, 1⟩⟩ :: rest) = ⟨'\x22', ⟨k, 1⟩⟩ :: rest := fun rest => by
    have hblank : ¬Text.isBlank '\x22' = true := by decide
    rw [skipBlank, if_neg hblank, if_neg (by simp [opensComment])]
  have hscan : ∀ rest, Lexeme.scan ⟨'\x22', ⟨k, 1⟩⟩ rest = Lexeme.text ⟨k, 1⟩ ⟨k, 1⟩ [] rest :=
    fun _ => rfl
  have hend : lexemes (place ⟨k, 2 + n + 1⟩ ['\n']) = [] := lexemes_of_nil rfl
  rw [readings, lexemes_of_cons (hskip _), hscan, Lexeme.text_wide, List.map_cons]
  dsimp only [Lexeme.upTo]
  rw [hend, show 2 + n = n + 2 from Nat.add_comm ..]
  rfl

theorem parseScript_around {before after : String} (n : Nat) (h : '\n' ∉ before.toList)
    (hbefore : errors (lexemes (place ⟨1, 1⟩ (before.toList ++ ['\n']))) = [])
    (hafter : errors (lexemes (place ⟨3, 1⟩ (after.toList ++ ['\n']))) = []) :
    parseScript (.around before (wideText n) after) =
      (Probe.ofTokens (ofLine 1 before ++ ⟨.text (sealedText n).1, ⟨⟨2, 1⟩, ⟨2, n + 3⟩⟩⟩ ::
        ofLine 3 after)).mapError .syntactic := by
  have hliteral : '\n' ∉ ("\"" ++ wideText n ++ "\"").toList := by simp [wideText]
  have hreadings : readings (Source.around before (wideText n) after).glyphs =
      readings (place ⟨1, 1⟩ (before.toList ++ ['\n'])) ++
        ((.ok (.text (wideText n)), ⟨⟨2, 1⟩, ⟨2, n + 3⟩⟩) ::
          readings (place ⟨3, 1⟩ (after.toList ++ ['\n']))) := by
    have hglyphs : (Source.around before (wideText n) after).glyphs = place {}
        (before.toList ++ '\n' :: (("\"" ++ wideText n ++ "\"").toList ++ '\n' ::
          (after.toList ++ ['\n']))) := by
      simp [Source.glyphs, Source.around]
    rw [hglyphs, readings_place h, readings_place hliteral, readings_wide]
    rfl
  rw [errors_eq] at hbefore hafter
  have herrors : errors (lexemes (Source.around before (wideText n) after).glyphs) = [] := by
    rw [errors_eq, hreadings, List.filterMap_append, hbefore, List.filterMap_cons_none rfl, hafter]
    rfl
  have htokens : tokens (lexemes (Source.around before (wideText n) after).glyphs) =
      ofLine 1 before ++ ⟨.text (wideText n), ⟨⟨2, 1⟩, ⟨2, n + 3⟩⟩⟩ :: ofLine 3 after := by
    rw [tokens_eq, hreadings, List.filterMap_append, List.filterMap_cons, ofLine, ofLine, tokens_eq,
      tokens_eq]
  rw [parseScript, ofSource, herrors, htokens, (sealedText n).2]
  rfl

end Token

end TraceScript
