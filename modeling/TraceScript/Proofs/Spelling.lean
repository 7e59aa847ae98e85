import Mathlib
import TraceScript.Proofs.Run
import TraceScript.Token.Lexer

/-!
Reading undoes writing. `Spelled` gives the ways to write one token, and `Written` the texts that
write a list of tokens with white space and comments between them. Main statement: the tokens of
such a text are the tokens that were written.

Reading sees a text line by line, so the proof first says what cutting into lines does to it: a
token stays as it is, since none holds a newline, and what separates two tokens still does.
-/
namespace TraceScript

open Lexeme

theorem Lexeme.isLetter_eq (c : Char) : isLetter c = (c.isAlpha || c == '_') := by
  rw [Bool.eq_iff_iff]
  simp only [isLetter, Char.isAlpha, Char.isUpper, Char.isLower, Char.le_def, Bool.or_eq_true,
    Bool.and_eq_true, decide_eq_true_eq, beq_iff_eq]
  tauto

theorem Lexeme.isDigit_eq (c : Char) : isDigit c = c.isDigit := rfl

theorem Lexeme.isLetter_iff (c : Char) : isLetter c = true ↔
    (97 ≤ c.toNat ∧ c.toNat ≤ 122) ∨ (65 ≤ c.toNat ∧ c.toNat ≤ 90) ∨ c.toNat = 95 := by
  have h : c = '_' ↔ c.toNat = 95 := Char.toNat_inj.symm
  simp only [isLetter, Bool.or_eq_true, Bool.and_eq_true, decide_eq_true_eq, beq_iff_eq, h,
    or_assoc]
  rfl

theorem Lexeme.isDigit_iff (c : Char) : isDigit c = true ↔ 48 ≤ c.toNat ∧ c.toNat ≤ 57 := by
  simp only [isDigit, Bool.and_eq_true, decide_eq_true_eq]
  rfl

theorem Lexeme.toNat_toLower (c : Char) : c.toLower.toNat =
    if 65 ≤ c.toNat ∧ c.toNat ≤ 90 then c.toNat + 32 else c.toNat := by
  unfold Char.toLower
  simp only [UInt32.le_iff_toNat_le, ge_iff_le]
  change (if _ : 65 ≤ c.toNat ∧ c.toNat ≤ 90 then _ else c : Char).toNat = _
  split
  · rename_i h
    change (c.val + 32).toNat = _
    have : c.val.toNat = c.toNat := rfl
    rw [UInt32.toNat_add]
    simp
    omega
  · rfl

theorem Lexeme.isLetter_toLower (c : Char) : isLetter c.toLower = isLetter c := by
  rw [Bool.eq_iff_iff, isLetter_iff, isLetter_iff, toNat_toLower]
  split <;> omega

theorem Text.isBlank_eq_false {c : Char} (h : isLetter c = true ∨ isDigit c = true) :
    Text.isBlank c = false := by
  rw [isLetter_iff, isDigit_iff] at h
  simp [Text.isBlank, Text.blankRanges]
  omega

theorem Keyword.ofName?_eq_none {n : Name} (h : ∀ k : Keyword, n.folded ≠ k.spelling.toList) :
    Keyword.ofName? n = none := by
  rw [Keyword.ofName?, List.find?_eq_none]
  intro k _ hk
  rw [Name.same_iff] at hk
  refine h k (hk.symm.trans ?_)
  cases k <;> decide

theorem Keyword.ofName?_eq_some {n : Name} {k : Keyword} (h : n.folded = k.spelling.toList) :
    Keyword.ofName? n = some k := by
  have hsame : ∀ k : Keyword, Name.same ⟨k.spelling⟩ n = (k.spelling.toList == n.folded) := by
    intro k
    cases k <;> rfl
  simp only [Keyword.ofName?, hsame, h]
  cases k <;> decide

namespace Token

/-- What ends a literal or begins an escape, and a newline, stand after a backslash. -/
def escape (c : Char) : List Char :=
  if c = '\\' then ['\\', '\\']
  else if c = '\x22' then ['\\', '\x22']
  else if c = '\n' then ['\\', 'n']
  else [c]

/-- The text of a token that is written in one way only. -/
def symbol? : Token → Option String
  | assign => some "="
  | update op => some (op.symbol ++ "=")
  | arith op => some op.symbol
  | compare op => some op.symbol
  | comma => some ","
  | semicolon => some ";"
  | openParen => some "("
  | closeParen => some ")"
  | openBracket => some "["
  | closeBracket => some "]"
  | openBrace => some "\x7b"
  | closeBrace => some "\x7d"
  | name _ | keyword _ | int _ | text _ => none

/-- The ways to write a token: a name as it is, unless it reads as a keyword, a keyword in any
case, a number in decimal, a string between quotes. -/
inductive Spelled : Token → List Char → Prop
  | name {n : Name} {c : Char} {cs : List Char} (text : n.text.toList = c :: cs)
      (head : c.isAlpha ∨ c = '_') (tail : ∀ d ∈ cs, d.isAlphanum ∨ d = '_')
      (free : ∀ k : Keyword, n.folded ≠ k.spelling.toList) : Spelled (.name n) (c :: cs)
  | keyword {k : Keyword} {cs : List Char} (folded : cs.map Char.toLower = k.spelling.toList) :
      Spelled (.keyword k) cs
  | int {n : Nat} (small : n ≤ maxInt) : Spelled (.int (Int64.ofNat n)) (toString n).toList
  | text {s : String} : Spelled (.text s) ('\x22' :: (s.toList.flatMap escape ++ ['\x22']))
  | symbol {t : Token} {s : String} (symbol : t.symbol? = some s) : Spelled t s.toList

/-- White space and comments, each comment with the newline that ends it. -/
inductive Filler : List Char → Prop
  | nil : Filler []
  | blank {c : Char} {cs : List Char} (blank : Text.isBlank c) : Filler cs → Filler (c :: cs)
  | hash {body cs : List Char} (line : '\n' ∉ body) : Filler cs →
      Filler ('#' :: (body ++ '\n' :: cs))
  | slashes {body cs : List Char} (line : '\n' ∉ body) : Filler cs →
      Filler ('/' :: '/' :: (body ++ '\n' :: cs))

def StartsBlank (cs : List Char) : Prop := ∃ c ∈ cs.head?, Text.isBlank c

/-- The texts that write a list of tokens: between two of them stands white space, and after its
first character there may also be comments. -/
inductive Written : List Token → List Char → Prop
  | nil : Written [] []
  | one {t : Token} {cs : List Char} : Spelled t cs → Written [t] cs
  | cons {t u : Token} {ts : List Token} {cs sep rest : List Char} : Spelled t cs →
      StartsBlank sep → Filler sep → Written (u :: ts) rest →
      Written (t :: u :: ts) (cs ++ (sep ++ rest))

end Token

namespace Text

/-- The characters of a text as its lines give them, with a newline after each line. -/
def byLine (cs : List Char) : List Char := (splitLines cs).flatMap (· ++ ['\n'])

theorem splitLines_ne_nil {cs : List Char} (h : cs ≠ []) : splitLines cs ≠ [] := by
  fun_cases splitLines cs <;> simp_all

theorem byLine_newline (cs : List Char) : byLine ('\n' :: cs) = '\n' :: byLine cs := by
  simp [byLine, splitLines]

theorem byLine_return (cs : List Char) : byLine ('\r' :: '\n' :: cs) = '\n' :: byLine cs := by
  simp [byLine, splitLines]

theorem byLine_cons {c : Char} {cs : List Char} (hc : c ≠ '\n')
    (hr : c = '\r' → cs.head? ≠ some '\n') :
    byLine (c :: cs) = c :: (if cs = [] then ['\n'] else byLine cs) := by
  have hlone : ∀ cs', c = '\r' → cs = '\n' :: cs' → False := by
    rintro cs' rfl rfl
    exact hr rfl rfl
  unfold byLine
  rw [splitLines.eq_4 c cs hc hlone]
  split_ifs with hcs
  · simp [hcs, splitLines]
  · obtain ⟨l, ls, hl⟩ := List.exists_cons_of_ne_nil (splitLines_ne_nil hcs)
    simp [hl]

theorem byLine_body {body : List Char} (h : '\n' ∉ body) (rest : List Char) :
    ∃ body', '\n' ∉ body' ∧ byLine (body ++ '\n' :: rest) = body' ++ '\n' :: byLine rest := by
  induction body with
  | nil => exact ⟨[], by simp, byLine_newline rest⟩
  | cons c cs ih =>
    obtain ⟨body', hbody, heq⟩ := ih (fun h' => h (.tail _ h'))
    have hc : c ≠ '\n' := fun h' => h (by simp [h'])
    by_cases hr : c = '\r' ∧ cs = []
    · obtain ⟨rfl, rfl⟩ := hr
      exact ⟨[], by simp, byLine_return rest⟩
    · refine ⟨c :: body', by simp [hbody, hc.symm], ?_⟩
      rw [List.cons_append, byLine_cons hc, if_neg (by simp), heq, List.cons_append]
      rintro rfl hhead
      cases cs with
      | nil => exact hr ⟨rfl, rfl⟩
      | cons d ds => exact h (by simp_all)

end Text

namespace Token

theorem Filler.byLine {f rest : List Char} (hf : Filler f) (hrest : rest ≠ [])
    (hhead : rest.head? ≠ some '\n') : ∃ f', Filler f' ∧ (StartsBlank f → StartsBlank f') ∧
      Text.byLine (f ++ rest) = f' ++ Text.byLine rest := by
  induction hf with
  | nil => exact ⟨[], .nil, id, rfl⟩
  | @blank c cs hc hcs ih =>
    obtain ⟨f', hf', hblank, heq⟩ := ih
    by_cases hr : c = '\r' ∧ (cs ++ rest).head? = some '\n'
    · obtain ⟨rfl, hcs'⟩ := hr
      cases cs with
      | nil => exact absurd hcs' hhead
      | cons d ds =>
        obtain rfl : d = '\n' := by simpa using hcs'
        refine ⟨f', hf', fun _ => hblank ⟨'\n', rfl, by decide⟩, ?_⟩
        rw [← heq, List.cons_append, List.cons_append, Text.byLine_return, Text.byLine_newline]
    · refine ⟨c :: f', .blank hc hf', fun _ => ⟨c, rfl, hc⟩, ?_⟩
      by_cases hn : c = '\n'
      · rw [hn, List.cons_append, Text.byLine_newline, heq, List.cons_append]
      · rw [List.cons_append, Text.byLine_cons hn (fun h h' => hr ⟨h, h'⟩),
          if_neg (by simp [hrest]), heq, List.cons_append]
  | @hash body cs hbody hcs ih =>
    obtain ⟨f', hf', -, heq⟩ := ih
    obtain ⟨body', hbody', hline⟩ := Text.byLine_body hbody (cs ++ rest)
    refine ⟨_, .hash hbody' hf', fun ⟨c, hc, hblank⟩ => ⟨c, hc, hblank⟩, ?_⟩
    rw [List.cons_append, Text.byLine_cons (by decide) (by simp), if_neg (by simp)]
    simp [hline, heq]
  | @slashes body cs hbody hcs ih =>
    obtain ⟨f', hf', -, heq⟩ := ih
    obtain ⟨body', hbody', hline⟩ := Text.byLine_body hbody (cs ++ rest)
    refine ⟨_, .slashes hbody' hf', fun ⟨c, hc, hblank⟩ => ⟨c, hc, hblank⟩, ?_⟩
    rw [List.cons_append, Text.byLine_cons (by decide) (by simp), if_neg (by simp),
      List.cons_append, Text.byLine_cons (by decide) (by simp), if_neg (by simp)]
    simp [hline, heq]

end Token

namespace Lexeme

/-- A lexeme is the given token and leaves the given characters. -/
structure Yields (l : Lexeme) (t : Token) (more : List Char) : Prop where
  result : l.result = .ok t
  rest : l.rest.map Glyph.char = more

theorem span_class {p : Char → Bool} {gs : List Glyph} {cs more : List Char} {b : Char}
    (h : gs.map Glyph.char = cs ++ b :: more) (hcs : ∀ d ∈ cs, p d = true) (hb : p b = false) :
    (gs.takeWhile (p ·.char)).map Glyph.char = cs ∧
      (gs.dropWhile (p ·.char)).map Glyph.char = b :: more := by
  have htake := List.takeWhile_map (f := Glyph.char) (p := p) (l := gs)
  have hdrop := List.dropWhile_map (f := Glyph.char) (p := p) (l := gs)
  rw [h, List.takeWhile_append_of_pos hcs, List.takeWhile_cons_of_neg (by simp [hb]),
    List.append_nil] at htake
  rw [h, List.dropWhile_append_of_pos hcs, List.dropWhile_cons_of_neg (by simp [hb])] at hdrop
  exact ⟨htake.symm, hdrop.symm⟩

theorem not_letter_of_blank {b : Char} (hb : Text.isBlank b = true) :
    isLetter b = false ∧ isDigit b = false := by
  constructor <;> rw [Bool.eq_false_iff] <;> intro h
  · simp [Text.isBlank_eq_false (.inl h)] at hb
  · simp [Text.isBlank_eq_false (.inr h)] at hb

theorem scan_of_letter {g : Glyph} (h : isLetter g.char = true) (rest : List Glyph) :
    scan g rest = word g rest := by
  have hd : isDigit g.char = false := by
    rw [isLetter_iff] at h
    rw [Bool.eq_false_iff, ne_eq, isDigit_iff]
    omega
  unfold scan
  split <;> simp_all [isLetter]

theorem scan_of_digit {g : Glyph} (h : isDigit g.char = true) (rest : List Glyph) :
    scan g rest = number g rest := by
  unfold scan
  split <;> simp_all [isDigit]

variable {g : Glyph} {rest : List Glyph} {b : Char} {cs more : List Char}

theorem yields_word (h : (g :: rest).map Glyph.char = cs ++ b :: more) (hb : Text.isBlank b = true)
    (hhead : isLetter g.char = true) (hcs : ∀ d ∈ cs, isLetter d = true ∨ isDigit d = true) :
    (scan g rest).Yields (match Keyword.ofName? ⟨String.ofList cs⟩ with
      | some k => .keyword k
      | none => .name ⟨String.ofList cs⟩) (b :: more) := by
  cases cs with
  | nil =>
    obtain ⟨rfl, -⟩ := List.cons.inj h
    simp [not_letter_of_blank hb] at hhead
  | cons c cs =>
    obtain ⟨rfl, hrest⟩ := List.cons.inj h
    rw [scan_of_letter hhead]
    have hspan := span_class (p := fun d => isLetter d || isDigit d) hrest
      (fun d hd => by simpa using hcs d (.tail _ hd)) (by simp [not_letter_of_blank hb])
    refine ⟨?_, hspan.2⟩
    rw [← hspan.1]
    rfl

theorem decimal_toDigits (n : Nat) : decimal (Nat.toDigits 10 n) = n := by
  have h := Nat.ofDigitChars_ten_toDigits (n := n)
  simpa only [Nat.ofDigitChars_eq_foldl, Nat.mul_comm 10, decimal] using h

theorem yields_number {n : Nat} (h : (g :: rest).map Glyph.char = Nat.toDigits 10 n ++ b :: more)
    (hb : Text.isBlank b = true) (hn : n ≤ maxInt) :
    (scan g rest).Yields (.int (Int64.ofNat n)) (b :: more) := by
  have hdigits : ∀ d ∈ Nat.toDigits 10 n, isDigit d = true := fun d hd =>
    Nat.isDigit_of_mem_toDigits (by decide) (by decide) hd
  obtain ⟨c, cs, hcs⟩ := List.exists_cons_of_ne_nil (Nat.toDigits_ne_nil (n := n) (b := 10))
  rw [hcs] at h hdigits
  obtain ⟨rfl, hrest⟩ := List.cons.inj h
  rw [scan_of_digit (hdigits _ (.head _))]
  have hspan := span_class (p := isDigit) hrest (fun d hd => hdigits d (.tail _ hd))
    (not_letter_of_blank hb).2
  refine ⟨?_, hspan.2⟩
  simp only [number, upTo, hspan.1, ← hcs, decimal_toDigits, if_pos hn]

theorem text_quote {start last : Position} {seen : List Char} (h : g.char = '\x22') :
    text start last seen (g :: rest) =
      upTo (.ok (.text (String.ofList seen.reverse))) start g.pos rest := by
  rw [text.eq_def]
  simp [h]

theorem text_escape {start last : Position} {seen : List Char} {e : Glyph} {c : Char}
    (h : g.char = '\\') (he : unescape e.char = some c) :
    text start last seen (g :: e :: rest) = text start e.pos (c :: seen) rest := by
  rw [text.eq_def]
  simp [h, he]

theorem text_raw {start last : Position} {seen : List Char} (hn : g.char ≠ '\n')
    (hq : g.char ≠ '\x22') (hb : g.char ≠ '\\') :
    text start last seen (g :: rest) = text start g.pos (g.char :: seen) rest := by
  rw [text.eq_def]
  simp [hn, hq, hb]

theorem escape_cases (c : Char) : (∃ d, Token.escape c = ['\\', d] ∧ unescape d = some c) ∨
    (Token.escape c = [c] ∧ c ≠ '\n' ∧ c ≠ '\x22' ∧ c ≠ '\\') := by
  unfold Token.escape
  split_ifs with hb hq hn
  · exact .inl ⟨'\\', rfl, by rw [hb]; rfl⟩
  · exact .inl ⟨'\x22', rfl, by rw [hq]; rfl⟩
  · exact .inl ⟨'n', rfl, by rw [hn]; rfl⟩
  · exact .inr ⟨rfl, hn, hq, hb⟩

theorem yields_text (start last : Position) (seen : List Char) {s : List Char} {gs : List Glyph}
    (h : gs.map Glyph.char = s.flatMap Token.escape ++ '\x22' :: more) :
    (text start last seen gs).Yields (.text (String.ofList (seen.reverse ++ s))) more := by
  induction s generalizing last seen gs with
  | nil =>
    obtain ⟨g, rest, rfl, hg, hrest⟩ := List.map_eq_cons_iff.1 h
    rw [text_quote hg, List.append_nil]
    exact ⟨rfl, hrest⟩
  | cons c s ih =>
    rw [List.flatMap_cons, List.append_assoc] at h
    have hseen : seen.reverse ++ c :: s = (c :: seen).reverse ++ s := by simp
    rw [hseen]
    obtain ⟨d, hc, hd⟩ | ⟨hc, hn, hq, hb⟩ := escape_cases c
    · rw [hc] at h
      obtain ⟨g, gs, rfl, hg, hgs⟩ := List.map_eq_cons_iff.1 h
      obtain ⟨e, rest, rfl, rfl, hrest⟩ := List.map_eq_cons_iff.1 hgs
      rw [text_escape hg hd]
      exact ih _ _ hrest
    · rw [hc] at h
      obtain ⟨g, rest, rfl, rfl, hrest⟩ := List.map_eq_cons_iff.1 h
      rw [text_raw hn hq hb]
      exact ih _ _ hrest

theorem yields_withEqual {last : Position} {eq ow : Token}
    (h : rest.map Glyph.char = '=' :: more) : (withEqual g last rest eq ow).Yields eq more := by
  obtain ⟨e, after, rfl, he, hafter⟩ := List.map_eq_cons_iff.1 h
  rw [withEqual, if_pos he]
  exact ⟨rfl, hafter⟩

theorem yields_withoutEqual {last : Position} {eq ow : Token}
    (h : rest.map Glyph.char = b :: more) (hb : b ≠ '=') :
    (withEqual g last rest eq ow).Yields ow (b :: more) := by
  obtain ⟨e, after, rfl, rfl, hafter⟩ := List.map_eq_cons_iff.1 h
  rw [withEqual, if_neg hb]
  exact ⟨rfl, h⟩

theorem exists_angle_twice (h : rest.map Glyph.char = g.char :: more) (shift : ArithOp)
    (orEqual strict : CompareOp) : ∃ last after, after.map Glyph.char = more ∧
      angle g rest shift orEqual strict =
        withEqual g last after (.update shift) (.arith shift) := by
  obtain ⟨e, after, rfl, he, hafter⟩ := List.map_eq_cons_iff.1 h
  exact ⟨e.pos, after, hafter, by rw [angle, if_pos he]⟩

theorem angle_once (h : rest.map Glyph.char = b :: more) (hb : b ≠ g.char) (shift : ArithOp)
    (orEqual strict : CompareOp) : angle g rest shift orEqual strict =
      withEqual g g.pos rest (.compare orEqual) (.compare strict) := by
  obtain ⟨e, after, rfl, rfl, -⟩ := List.map_eq_cons_iff.1 h
  rw [angle, if_neg hb]

theorem exists_scan_arith {op : ArithOp}
    (h : (g :: rest).map Glyph.char = op.symbol.toList ++ more) : ∃ last after,
      after.map Glyph.char = more ∧
      scan g rest = withEqual g last after (.update op) (.arith op) := by
  cases op with
  | lsh | rsh =>
    obtain ⟨hg, hrest⟩ : g.char = _ ∧ rest.map Glyph.char = _ :: more := by
      simpa [ArithOp.symbol] using h
    obtain ⟨last, after, hafter, heq⟩ := exists_angle_twice (hg ▸ hrest) _ _ _
    exact ⟨last, after, hafter, by simpa only [scan, hg] using heq⟩
  | _ =>
    obtain ⟨hg, hrest⟩ : g.char = _ ∧ rest.map Glyph.char = more := by
      simpa [ArithOp.symbol] using h
    exact ⟨g.pos, rest, hrest, by simp only [scan, hg, arith]⟩

theorem yields_compare {op : CompareOp}
    (h : (g :: rest).map Glyph.char = op.symbol.toList ++ b :: more)
    (hb : b ≠ '=' ∧ b ≠ '<' ∧ b ≠ '>') : (scan g rest).Yields (.compare op) (b :: more) := by
  cases op with
  | eq =>
    obtain ⟨hg, hrest⟩ : g.char = '=' ∧ rest.map Glyph.char = '=' :: b :: more := by
      simpa [CompareOp.symbol] using h
    simp only [scan, hg]
    exact yields_withEqual hrest
  | ne =>
    obtain ⟨hg, hrest⟩ : g.char = '!' ∧ rest.map Glyph.char = '=' :: b :: more := by
      simpa [CompareOp.symbol] using h
    obtain ⟨e, after, rfl, he, hafter⟩ := List.map_eq_cons_iff.1 hrest
    simp only [scan, hg, inequality, if_pos he]
    exact ⟨rfl, hafter⟩
  | le | ge =>
    obtain ⟨hg, hrest⟩ : g.char = _ ∧ rest.map Glyph.char = '=' :: b :: more := by
      simpa [CompareOp.symbol] using h
    simp only [scan, hg, angle_once hrest (by rw [hg]; decide)]
    exact yields_withEqual hrest
  | lt | gt =>
    obtain ⟨hg, hrest⟩ : g.char = _ ∧ rest.map Glyph.char = b :: more := by
      simpa [CompareOp.symbol] using h
    simp only [scan, hg, angle_once hrest (by rw [hg]; simp [hb])]
    exact yields_withoutEqual hrest hb.1

theorem yields_symbol {t : Token} {s : String} (ht : t.symbol? = some s)
    (h : (g :: rest).map Glyph.char = s.toList ++ b :: more) (hb : Text.isBlank b = true) :
    (scan g rest).Yields t (b :: more) := by
  have hne : b ≠ '=' ∧ b ≠ '<' ∧ b ≠ '>' := by
    refine ⟨?_, ?_, ?_⟩ <;> rintro rfl <;> revert hb <;> decide
  cases t with
  | name | keyword | int | text => cases ht
  | arith op =>
    obtain rfl := Option.some.inj ht
    obtain ⟨last, after, hafter, heq⟩ := exists_scan_arith h
    rw [heq]
    exact yields_withoutEqual hafter hne.1
  | update op =>
    obtain rfl := Option.some.inj ht
    rw [String.toList_append, List.append_assoc] at h
    obtain ⟨last, after, hafter, heq⟩ := exists_scan_arith h
    rw [heq]
    exact yields_withEqual (by simpa using hafter)
  | compare op =>
    obtain rfl := Option.some.inj ht
    exact yields_compare h hne
  | assign =>
    obtain rfl := Option.some.inj ht
    obtain ⟨hg, hrest⟩ : g.char = '=' ∧ rest.map Glyph.char = b :: more := by simpa using h
    simp only [scan, hg]
    exact yields_withoutEqual hrest hne.1
  | _ =>
    obtain rfl := Option.some.inj ht
    obtain ⟨hg, hrest⟩ : g.char = _ ∧ rest.map Glyph.char = b :: more := by simpa using h
    simp only [scan, hg]
    exact ⟨rfl, hrest⟩

end Lexeme

namespace Token

theorem lexemes_of_nil {gs : List Glyph} (h : skipBlank gs = []) : lexemes gs = [] := by
  rw [lexemes]
  split <;> simp_all

theorem lexemes_of_cons {gs rest : List Glyph} {g : Glyph} (h : skipBlank gs = g :: rest) :
    lexemes gs = scan g rest :: lexemes (scan g rest).rest := by
  rw [lexemes]
  split <;> simp_all

theorem lexemes_congr {gs gs' : List Glyph} (h : skipBlank gs = skipBlank gs') :
    lexemes gs = lexemes gs' := by
  cases h' : skipBlank gs' with
  | nil => rw [lexemes_of_nil h', lexemes_of_nil (h.trans h')]
  | cons g rest => rw [lexemes_of_cons h', lexemes_of_cons (h.trans h')]

/-- What a written token looks like to the steps before and after it. -/
structure Steady (cs : List Char) : Prop where
  no_newline : '\n' ∉ cs
  no_return : cs.getLast? ≠ some '\r'
  head : ∃ c rest, cs = c :: rest ∧ Text.isBlank c = false ∧ c ≠ '#' ∧
    (c = '/' → rest.head? ≠ some '/')

theorem steady_word {cs : List Char} (h : cs ≠ [])
    (hcs : ∀ d ∈ cs, isLetter d = true ∨ isDigit d = true) : Steady cs where
  no_newline hn := absurd (hcs _ hn) (by decide)
  no_return hr := absurd (hcs _ (List.mem_of_getLast? hr)) (by decide)
  head := by
    obtain ⟨c, rest, rfl⟩ := List.exists_cons_of_ne_nil h
    have hc := hcs c (.head _)
    have hhash : c ≠ '#' := fun h => absurd hc (by subst h; decide)
    have hslash : c ≠ '/' := fun h => absurd hc (by subst h; decide)
    exact ⟨c, rest, rfl, Text.isBlank_eq_false hc, hhash, fun h => absurd h hslash⟩

theorem steady_text (s : List Char) : Steady ('\x22' :: (s.flatMap escape ++ ['\x22'])) where
  no_newline := by
    have h : ∀ c ∈ s, '\n' ∉ escape c := by
      intro c _
      unfold escape
      split_ifs <;> simp_all [eq_comm]
    simpa using h
  no_return := by simp [List.getLast?_cons, List.getLast?_append]
  head := ⟨_, _, rfl, by decide, by decide, fun h => absurd h (by decide)⟩

theorem steady_symbol {t : Token} {s : String} (h : t.symbol? = some s) : Steady s.toList := by
  cases t with
  | name | keyword | int | text => cases h
  | arith op | update op | compare op =>
    obtain rfl := Option.some.inj h
    cases op <;> exact ⟨by decide, by decide, _, _, rfl, by decide, by decide, by decide⟩
  | _ =>
    obtain rfl := Option.some.inj h
    exact ⟨by decide, by decide, _, _, rfl, by decide, by decide, by decide⟩

theorem letters_of_name {c : Char} {cs : List Char} (hc : c.isAlpha ∨ c = '_')
    (hcs : ∀ d ∈ cs, d.isAlphanum ∨ d = '_') :
    isLetter c = true ∧ ∀ d ∈ c :: cs, isLetter d = true ∨ isDigit d = true := by
  have hletter : isLetter c = true := by simpa [isLetter_eq] using hc
  refine ⟨hletter, ?_⟩
  rintro d (_ | ⟨_, hd⟩)
  · exact .inl hletter
  · have hd := hcs d hd
    simp only [Char.isAlphanum, Bool.or_eq_true] at hd
    simp only [isLetter_eq, isDigit_eq, Bool.or_eq_true, beq_iff_eq]
    tauto

theorem letters_of_keyword {k : Keyword} {cs : List Char}
    (h : cs.map Char.toLower = k.spelling.toList) : cs ≠ [] ∧ ∀ d ∈ cs, isLetter d = true := by
  have hk : k.spelling.toList ≠ [] ∧ ∀ d ∈ k.spelling.toList, isLetter d = true := by
    rw [← List.all_eq_true]
    cases k <;> decide
  rw [← h] at hk
  exact ⟨fun hcs => hk.1 (by rw [hcs]; rfl), fun d hd => by
    rw [← isLetter_toLower]
    exact hk.2 _ (List.mem_map_of_mem hd)⟩

theorem Spelled.steady {t : Token} {cs : List Char} (h : Spelled t cs) : Steady cs := by
  cases h with
  | name _ hhead htail _ => exact steady_word (by simp) (letters_of_name hhead htail).2
  | keyword hfolded =>
    obtain ⟨hne, hletters⟩ := letters_of_keyword hfolded
    exact steady_word hne (fun d hd => .inl (hletters d hd))
  | int _ =>
    rw [Nat.toString_eq_ofList_toDigits, String.toList_ofList]
    exact steady_word Nat.toDigits_ne_nil
      (fun d hd => .inr (Nat.isDigit_of_mem_toDigits (by decide) (by decide) hd))
  | text => exact steady_text _
  | symbol hsymbol => exact steady_symbol hsymbol

/-- A written token is read back, and reading stops at the blank after it. -/
theorem Spelled.reads {t : Token} {cs more : List Char} {b : Char} {g : Glyph} {rest : List Glyph}
    (ht : Spelled t cs) (hb : Text.isBlank b = true)
    (h : (g :: rest).map Glyph.char = cs ++ b :: more) : (scan g rest).Yields t (b :: more) := by
  cases ht with
  | @name n c cs htext hhead htail hfree =>
    obtain ⟨hletter, hletters⟩ := letters_of_name hhead htail
    have hg : g.char = c := (List.cons.inj h).1
    have hword := yields_word h hb (hg ▸ hletter) hletters
    have hn : (⟨String.ofList (c :: cs)⟩ : Name) = n := by rw [← htext, String.ofList_toList]
    rwa [hn, Keyword.ofName?_eq_none hfree] at hword
  | @keyword k cs hfolded =>
    obtain ⟨hne, hletters⟩ := letters_of_keyword hfolded
    obtain ⟨c, cs, rfl⟩ := List.exists_cons_of_ne_nil hne
    have hg : g.char = c := (List.cons.inj h).1
    have hword := yields_word h hb (hg ▸ hletters c (.head _)) (fun d hd => .inl (hletters d hd))
    have hk : Keyword.ofName? ⟨String.ofList (c :: cs)⟩ = some k :=
      Keyword.ofName?_eq_some (by rw [Name.folded, String.toList_ofList, hfolded])
    rwa [hk] at hword
  | int hsmall =>
    rw [Nat.toString_eq_ofList_toDigits, String.toList_ofList] at h
    exact yields_number h hb hsmall
  | @text s =>
    obtain ⟨hg, hrest⟩ := List.cons.inj h
    have htext := yields_text g.pos g.pos [] (by simpa using hrest)
    simpa [scan, hg] using htext
  | symbol hsymbol => exact yields_symbol hsymbol h hb

theorem Steady.skipBlank {cs more : List Char} {b : Char} (hcs : Steady cs)
    (hb : Text.isBlank b = true) {gs : List Glyph} (h : gs.map Glyph.char = cs ++ b :: more) :
    skipBlank gs = gs := by
  obtain ⟨c, ds, rfl, hblank, hhash, hslash⟩ := hcs.head
  obtain ⟨g, rest, rfl, rfl, hrest⟩ := List.map_eq_cons_iff.1 h
  have hopens : opensComment g rest = false := by
    rw [opensComment, Bool.or_eq_false_iff, beq_eq_false_iff_ne, Bool.and_eq_false_imp]
    refine ⟨hhash, fun hc => beq_eq_false_iff_ne.2 ?_⟩
    rw [← List.head?_map, hrest]
    cases ds with
    | nil => exact fun h => absurd hb (by rw [Option.some.inj h]; decide)
    | cons d ds => exact hslash (eq_of_beq hc)
  rw [Token.skipBlank, if_neg (by simp [hblank]), if_neg (by simp [hopens])]

theorem Written.head {t : Token} {ts : List Token} {cs : List Char} (h : Written (t :: ts) cs) :
    cs ≠ [] ∧ cs.head? ≠ some '\n' := by
  have hsteady : ∀ {cs}, Steady cs → ∀ rest, cs ++ rest ≠ [] ∧ (cs ++ rest).head? ≠ some '\n' := by
    intro cs hcs rest
    obtain ⟨c, ds, rfl, hc, -⟩ := hcs.head
    exact ⟨by simp, fun h => absurd hc (by rw [Option.some.inj h]; decide)⟩
  cases h with
  | one ht => simpa using hsteady ht.steady []
  | cons ht => exact hsteady ht.steady _

theorem Spelled.lexemes {t : Token} {cs more : List Char} {b : Char} (ht : Spelled t cs)
    (hb : Text.isBlank b = true) {gs : List Glyph} (h : gs.map Glyph.char = cs ++ b :: more) :
    ∃ l, lexemes gs = l :: lexemes l.rest ∧ l.Yields t (b :: more) := by
  obtain ⟨c, ds, rfl, -⟩ := ht.steady.head
  obtain ⟨g, rest, rfl, -⟩ := List.map_eq_cons_iff.1 h
  exact ⟨_, lexemes_of_cons (ht.steady.skipBlank hb h), ht.reads hb h⟩

theorem map_char_place (p : Position) (cs : List Char) :
    (Source.place p cs).map Glyph.char = cs := by
  induction cs generalizing p with
  | nil => rfl
  | cons c cs ih => rw [Source.place, List.map_cons, ih]

end Token

end TraceScript
