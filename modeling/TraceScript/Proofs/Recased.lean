import TraceScript.Proofs.Relabeled
import TraceScript.Proofs.Spelling

/-!
Texts that differ in the case of letters. `Text.Recased` relates two texts whose characters differ in
case alone, and only inside of keywords and of names other than those of probes. Main statement: both
texts have the same lexical errors, or tokens that differ in the case of such names alone.

The two texts are read side by side, as one list of twins. A step of reading takes the same twins of
both. The words that may differ are known by their spans, so the proof keeps track of places: no span
of a word reaches a character before or after that word.
-/
namespace TraceScript

open Lexeme

namespace Lexeme

theorem toLower_toLower (c : Char) : c.toLower.toLower = c.toLower := by
  refine Char.toNat_inj.1 ?_
  rw [toNat_toLower, toNat_toLower]
  split_ifs <;> omega

theorem eq_of_toLower_eq {c d : Char} (h : c.toLower = d.toLower) (hc : isLetter c = false) : c = d := by
  have hd : isLetter d = false := by rw [← isLetter_toLower, ← h, isLetter_toLower, hc]
  have hnat := congrArg Char.toNat h
  rw [toNat_toLower, toNat_toLower] at hnat
  rw [Bool.eq_false_iff, ne_eq, isLetter_iff] at hc hd
  refine Char.toNat_inj.1 ?_
  split at hnat <;> split at hnat <;> omega

theorem toLower_eq_iff {c d : Char} (hd : isLetter d = false) : c.toLower = d ↔ c = d := by
  constructor
  · rintro rfl
    exact (eq_of_toLower_eq (toLower_toLower c) hd).symm
  · rintro rfl
    exact (eq_of_toLower_eq (toLower_toLower c).symm hd).symm

end Lexeme

namespace Name

/-- The name in lower case. -/
def lower (n : Name) : Name := ⟨String.ofList n.folded⟩

theorem folded_lower (n : Name) : n.lower.folded = n.folded := by
  rw [lower, folded, String.toList_ofList, folded, List.map_map]
  exact List.map_congr_left fun c _ => toLower_toLower c

theorem lower_eq {a b : Name} (h : a.folded = b.folded) : a.lower = b.lower := by
  rw [lower, lower, h]

end Name

/-- All names in lower case. -/
def Relabeling.lower : Relabeling where
  name := Name.lower
  span := id
  map := id
  folded := Name.folded_lower
  join := Span.join_id

theorem Keyword.ofName?_congr {a b : Name} (h : a.folded = b.folded) :
    Keyword.ofName? a = Keyword.ofName? b := by
  unfold Keyword.ofName? Name.same
  rw [h]

def Token.relabel (r : Relabeling) : Token → Token
  | name n => name (r.name n)
  | t => t

namespace Lexeme

def goesOn (g : Glyph) : Bool := isLetter g.char || isDigit g.char

def wordToken (cs : List Char) : Token :=
  match Keyword.ofName? ⟨String.ofList cs⟩ with
  | some k => .keyword k
  | none => .name ⟨String.ofList cs⟩

theorem word_eq (g : Glyph) (rest : List Glyph) : word g rest =
    upTo (.ok (wordToken (g.char :: (rest.takeWhile goesOn).map Glyph.char))) g.pos
      (lastOf g.pos (rest.takeWhile goesOn)) (rest.dropWhile goesOn) := rfl

theorem relabel_wordToken (cs ds : List Char) (h : cs.map Char.toLower = ds.map Char.toLower) :
    (wordToken cs).relabel .lower = (wordToken ds).relabel .lower := by
  have hfolded : (Name.mk (String.ofList cs)).folded = (Name.mk (String.ofList ds)).folded := by
    rw [Name.folded, Name.folded, String.toList_ofList, String.toList_ofList, h]
  unfold wordToken
  rw [Keyword.ofName?_congr hfolded]
  split
  · rfl
  · exact congrArg Token.name (Name.lower_eq hfolded)

theorem text_newline {start last : Position} {seen : List Char} {g : Glyph} {rest : List Glyph}
    (h : g.char = '\n') :
    text start last seen (g :: rest) = upTo (.error .unterminatedText) start g.pos rest := by
  rw [text.eq_def]
  simp [h]

theorem text_lone {start last : Position} {seen : List Char} {g : Glyph} (h : g.char = '\\') :
    text start last seen [g] = upTo (.error .unterminatedText) start g.pos [] := by
  rw [text.eq_def]
  simp [h]

theorem text_badEscape {start last : Position} {seen : List Char} {g e : Glyph} {rest : List Glyph}
    (h : g.char = '\\') (he : unescape e.char = none) :
    text start last seen (g :: e :: rest) = upTo (.error (.badEscape e.char)) g.pos e.pos rest := by
  rw [text.eq_def]
  simp [h, he]

end Lexeme

def Token.isWord : Token → Bool
  | name _ | keyword _ => true
  | _ => false

namespace Lexeme

/-- Whether a lexeme is a keyword, or a name that is not `named` to be the name of a probe. -/
def isFree (named : Bool) (l : Lexeme) : Bool :=
  match l.result with
  | .ok (.keyword _) => true
  | .ok (.name _) => !named
  | _ => false

theorem not_isFree (named : Bool) {l : Lexeme} (h : ∀ t, l.result = .ok t → t.isWord = false) :
    ¬l.isFree named = true := by
  unfold isFree
  split
  · cases h _ ‹_›
  · cases h _ ‹_›
  · exact Bool.false_ne_true

/-- Whether the next name is that of a probe. -/
def opensProbe (l : Lexeme) : Bool :=
  match l.result with
  | .ok (.keyword .probe) => true
  | _ => false

end Lexeme

/-- The spans of the words in which the case of letters is free. -/
def Token.freeSpans (named : Bool) : List Lexeme → List Span
  | [] => []
  | l :: ls => (if l.isFree named then [l.span] else []) ++ freeSpans l.opensProbe ls

/-- A place between the start and the end of a span of one line. -/
def Span.covers (s : Span) (p : Position) : Prop :=
  s.start.line = p.line ∧ s.start.column ≤ p.column ∧ p.column < s.stop.column

instance (s : Span) (p : Position) : Decidable (s.covers p) := inferInstanceAs (Decidable (_ ∧ _))

namespace Text

/-- The characters of a text with their places. -/
def glyphs (text : String) : List Glyph := (Source.ofText "" text).glyphs

/-- Two texts that differ in the case of letters alone, and that only inside of keywords and of names
other than those of probes. -/
structure Recased (a b : String) : Prop where
  folded : a.toList.map Char.toLower = b.toList.map Char.toLower
  inWords : ∀ p ∈ (glyphs a).zip (glyphs b), p.1.char ≠ p.2.char →
    ∃ s ∈ Token.freeSpans false (Token.lexemes (glyphs a)), s.covers p.1.pos

end Text

/-- A character of two texts that differ in case alone. -/
structure Twin where
  pos : Position
  left : Char
  right : Char
  alike : left.toLower = right.toLower

namespace Twin

def first (t : Twin) : Glyph := ⟨t.left, t.pos⟩

def second (t : Twin) : Glyph := ⟨t.right, t.pos⟩

section

variable (t : Twin)

theorem isLetter_right : isLetter t.right = isLetter t.left := by
  rw [← isLetter_toLower, ← t.alike, isLetter_toLower]

theorem right_eq (h : isLetter t.left = false) : t.right = t.left :=
  (eq_of_toLower_eq t.alike h).symm

theorem right_eq_iff {c : Char} (hc : isLetter c = false) : t.right = c ↔ t.left = c := by
  constructor
  · rintro rfl
    exact (t.right_eq (t.isLetter_right ▸ hc)).symm
  · rintro rfl
    exact t.right_eq hc

theorem isDigit_right : isDigit t.right = isDigit t.left := by
  cases h : isLetter t.left with
  | false => rw [t.right_eq h]
  | true =>
    have hdigit : ∀ c, isLetter c = true → isDigit c = false := by
      intro c hc
      rw [isLetter_iff] at hc
      rw [Bool.eq_false_iff, ne_eq, isDigit_iff]
      omega
    rw [hdigit _ h, hdigit _ (t.isLetter_right.trans h)]

theorem isBlank_right : Text.isBlank t.right = Text.isBlank t.left := by
  cases h : isLetter t.left with
  | false => rw [t.right_eq h]
  | true =>
    rw [Text.isBlank_eq_false (.inl h), Text.isBlank_eq_false (.inl (t.isLetter_right.trans h))]

end

theorem opensComment_second (t : Twin) (ts : List Twin) :
    Token.opensComment t.second (ts.map second) = Token.opensComment t.first (ts.map first) := by
  have hchar : ∀ (t : Twin) (c : Char), isLetter c = false → (t.right == c) = (t.left == c) :=
    fun t c hc => Bool.eq_iff_iff.2 (by rw [beq_iff_eq, beq_iff_eq, t.right_eq_iff hc])
  unfold Token.opensComment
  simp only [first, second, hchar t _ (show isLetter '#' = false by decide),
    hchar t _ (show isLetter '/' = false by decide)]
  cases ts with
  | nil => rfl
  | cons u us =>
    simp only [List.map_cons, List.head?_cons, Option.map_some, Option.some_beq_some, first, second,
      hchar u _ (show isLetter '/' = false by decide)]

mutual

theorem exists_skipBlank : ∀ ts : List Twin, ∃ us, us <:+ ts ∧
    Token.skipBlank (ts.map first) = us.map first ∧ Token.skipBlank (ts.map second) = us.map second
  | [] => ⟨[], List.suffix_refl _, rfl, rfl⟩
  | t :: ts => by
    obtain ⟨us, hsuffix, hfirst, hsecond⟩ := exists_skipBlank ts
    obtain ⟨vs, hsuffix', hfirst', hsecond'⟩ := exists_skipComment ts
    have hblank : Text.isBlank t.second.char = Text.isBlank t.first.char := t.isBlank_right
    rw [List.map_cons, List.map_cons, Token.skipBlank, Token.skipBlank, hblank, opensComment_second]
    split
    · exact ⟨us, hsuffix.trans (List.suffix_cons t ts), hfirst, hsecond⟩
    · split
      · exact ⟨vs, hsuffix'.trans (List.suffix_cons t ts), hfirst', hsecond'⟩
      · exact ⟨t :: ts, List.suffix_refl _, rfl, rfl⟩

theorem exists_skipComment : ∀ ts : List Twin, ∃ us, us <:+ ts ∧
    Token.skipComment (ts.map first) = us.map first ∧
    Token.skipComment (ts.map second) = us.map second
  | [] => ⟨[], List.suffix_refl _, rfl, rfl⟩
  | t :: ts => by
    obtain ⟨us, hsuffix, hfirst, hsecond⟩ := exists_skipBlank ts
    obtain ⟨vs, hsuffix', hfirst', hsecond'⟩ := exists_skipComment ts
    have hnewline : t.second.char = '\n' ↔ t.first.char = '\n' := t.right_eq_iff (by decide)
    rw [List.map_cons, List.map_cons, Token.skipComment, Token.skipComment]
    simp only [hnewline]
    split
    · exact ⟨us, hsuffix.trans (List.suffix_cons t ts), hfirst, hsecond⟩
    · exact ⟨vs, hsuffix'.trans (List.suffix_cons t ts), hfirst', hsecond'⟩

end

theorem lastOf_second (p : Position) (us : List Twin) :
    lastOf p (us.map second) = lastOf p (us.map first) := by
  rw [lastOf, lastOf, List.getLast?_map, List.getLast?_map, Option.map_map, Option.map_map]
  rfl

/-- What one step of reading that begins with a twin finds in two texts, if it takes the twins `used`
and leaves the twins `more`. -/
structure Reads (t : Twin) (used more : List Twin) (l l' : Lexeme) : Prop where
  rest : l.rest = more.map first
  /-- What is no word must be the same in both texts, for then it stays what it is. -/
  alike : (isLetter t.left = false → ∀ u ∈ used, u.left = u.right) →
    l'.rest = more.map second ∧ l'.span = l.span ∧
    l'.result.map (Token.relabel .lower) = l.result.map (Token.relabel .lower)
  same : (∀ u ∈ t :: used, u.left = u.right) → l'.result = l.result
  span : ∀ named, l.isFree named = true → isLetter t.left = true ∧
    l.span = ⟨t.pos, (lastOf t.pos (used.map first)).advance⟩

/-- The same lexeme, which is no word, in both texts, whatever case the rest is in. -/
structure Agrees (us : List Twin) (l l' : Lexeme) : Prop where
  rest : ∃ more, more <:+ us ∧ l.rest = more.map first ∧ l'.rest = more.map second
  result : l'.result = l.result
  span : l'.span = l.span
  noWord : ∀ x, l.result = .ok x → x.isWord = false

theorem Agrees.reads {us : List Twin} {l l' : Lexeme} (h : Agrees us l l') (t : Twin) :
    ∃ used more, us = used ++ more ∧ Reads t used more l l' := by
  obtain ⟨more, ⟨used, hus⟩, hfirst, hsecond⟩ := h.rest
  exact ⟨used, more, hus.symm, hfirst, fun _ => ⟨hsecond, h.span, by rw [h.result]⟩,
    fun _ => h.result, fun named hfree => absurd hfree (not_isFree named h.noWord)⟩

theorem agrees_token {us more : List Twin} {x : Token} (h : more <:+ us) (hx : x.isWord = false)
    (start last : Position) : Agrees us (upTo (.ok x) start last (more.map first))
      (upTo (.ok x) start last (more.map second)) :=
  ⟨⟨more, h, rfl, rfl⟩, rfl, rfl, fun _ h => Except.ok.inj h ▸ hx⟩

theorem agrees_error {us more : List Twin} (h : more <:+ us) (e : LexicalError)
    (start last : Position) : Agrees us (upTo (.error e) start last (more.map first))
      (upTo (.error e) start last (more.map second)) :=
  ⟨⟨more, h, rfl, rfl⟩, rfl, rfl, fun _ h => nomatch h⟩

section

variable (t : Twin) (us : List Twin)

theorem agrees_withEqual (last : Position) (eq ow : Token) (heq : eq.isWord = false)
    (how : ow.isWord = false) : Agrees us (withEqual t.first last (us.map first) eq ow)
      (withEqual t.second last (us.map second) eq ow) := by
  cases us with
  | nil => exact agrees_token (List.suffix_refl []) how _ _
  | cons u us =>
    have hequal : u.second.char = '=' ↔ u.first.char = '=' := u.right_eq_iff (by decide)
    rw [List.map_cons, List.map_cons, withEqual, withEqual]
    simp only [hequal]
    split
    · exact agrees_token (List.suffix_cons u us) heq _ _
    · exact agrees_token (List.suffix_refl (u :: us)) how _ _

theorem agrees_angle (ht : isLetter t.left = false) (shift : ArithOp) (orEqual strict : CompareOp) :
    Agrees us (angle t.first (us.map first) shift orEqual strict)
      (angle t.second (us.map second) shift orEqual strict) := by
  cases us with
  | nil => exact agrees_token (List.suffix_refl []) rfl _ _
  | cons u us =>
    have htwice : u.second.char = t.second.char ↔ u.first.char = t.first.char := by
      rw [show t.second.char = t.first.char from t.right_eq ht]
      exact u.right_eq_iff ht
    rw [List.map_cons, List.map_cons, angle, angle]
    simp only [htwice]
    split
    · have h := agrees_withEqual t us u.pos (.update shift) (.arith shift) rfl rfl
      obtain ⟨more, hsuffix, hrest⟩ := h.rest
      exact ⟨⟨more, hsuffix.trans (List.suffix_cons u us), hrest⟩, h.result, h.span, h.noWord⟩
    · exact agrees_withEqual t (u :: us) t.pos _ _ rfl rfl

theorem agrees_inequality :
    Agrees us (inequality t.first (us.map first)) (inequality t.second (us.map second)) := by
  cases us with
  | nil => exact agrees_error (List.suffix_refl []) _ _ _
  | cons u us =>
    have hequal : u.second.char = '=' ↔ u.first.char = '=' := u.right_eq_iff (by decide)
    rw [List.map_cons, List.map_cons, inequality, inequality]
    simp only [hequal]
    split
    · exact agrees_token (List.suffix_cons u us) rfl _ _
    · exact agrees_error (List.suffix_refl (u :: us)) _ _ _

theorem agrees_number (ht : isDigit t.left = true) :
    Agrees us (number t.first (us.map first)) (number t.second (us.map second)) := by
  have hdigit : ∀ u : Twin, isDigit u.left = true → u.right = u.left := fun u hu =>
    u.right_eq (by
      rw [isDigit_iff] at hu
      rw [Bool.eq_false_iff, ne_eq, isLetter_iff]
      omega)
  have hclass : (fun g : Glyph => isDigit g.char) ∘ second = (fun g => isDigit g.char) ∘ first :=
    funext isDigit_right
  let digits := us.takeWhile ((fun g => isDigit g.char) ∘ first)
  have hchars : (digits.map second).map Glyph.char = (digits.map first).map Glyph.char := by
    rw [List.map_map, List.map_map]
    exact List.map_congr_left fun u hu => hdigit u (List.all_eq_true.1 List.all_takeWhile u hu)
  have hvalue : decimal (t.second.char :: (digits.map second).map Glyph.char) =
      decimal (t.first.char :: (digits.map first).map Glyph.char) := by
    rw [hchars, show t.second.char = t.first.char from hdigit t ht]
  unfold number
  simp only [List.takeWhile_map, List.dropWhile_map, hclass, lastOf_second]
  rw [hvalue]
  split
  · exact agrees_token (List.dropWhile_suffix _) rfl _ _
  · exact agrees_error (List.dropWhile_suffix _) _ _ _

/-- A word ends at the same twin in both texts, and is the same keyword or a name of the same
letters. -/
theorem exists_word (ht : isLetter t.left = true) : ∃ used more, us = used ++ more ∧
    Reads t used more (word t.first (us.map first)) (word t.second (us.map second)) := by
  have hclass : goesOn ∘ second = goesOn ∘ first := funext fun u => by
    change (isLetter u.right || isDigit u.right) = (isLetter u.left || isDigit u.left)
    rw [u.isLetter_right, u.isDigit_right]
  rw [word_eq, word_eq, List.takeWhile_map, List.takeWhile_map, List.dropWhile_map, List.dropWhile_map,
    List.map_map, List.map_map, hclass, lastOf_second]
  let used := us.takeWhile (goesOn ∘ first)
  have htoken := relabel_wordToken (t.left :: used.map left) (t.right :: used.map right) (by
    rw [List.map_cons, List.map_cons, List.map_map, List.map_map, t.alike]
    exact congrArg (t.right.toLower :: ·) (List.map_congr_left fun u _ => u.alike))
  refine ⟨used, us.dropWhile (goesOn ∘ first), List.takeWhile_append_dropWhile.symm, rfl,
    fun _ => ⟨rfl, rfl, congrArg Except.ok htoken.symm⟩, fun hsame => ?_, fun _ _ => ⟨ht, rfl⟩⟩
  have hchars : t.right :: used.map right = t.left :: used.map left := by
    rw [hsame t (.head _), List.map_congr_left fun u hu => (hsame u (.tail _ hu)).symm]
  exact congrArg (fun cs => Except.ok (wordToken cs)) hchars

end

/-- A literal, which is known from what it takes of both texts. -/
structure TakesLiteral (used more : List Twin) (l l' : Lexeme) : Prop where
  rest : l.rest = more.map first
  same : (∀ u ∈ used, u.left = u.right) → l' = { l with rest := more.map second }
  noWord : ∀ x, l.result = .ok x → x.isWord = false

theorem second_eq {u : Twin} (h : u.left = u.right) : u.second = u.first := by rw [second, first, h]

theorem exists_text (start : Position) : ∀ (us : List Twin) (last : Position) (seen : List Char),
    ∃ used more, us = used ++ more ∧ TakesLiteral used more (text start last seen (us.map first))
      (text start last seen (us.map second))
  | [], last, seen => ⟨[], [], rfl, rfl, fun _ => rfl, nofun⟩
  | u :: us, last, seen => by
    rw [List.map_cons, List.map_cons]
    by_cases hn : u.first.char = '\n'
    · rw [text_newline hn]
      refine ⟨[u], us, rfl, rfl, fun h => ?_, nofun⟩
      rw [second_eq (h u (.head _)), text_newline hn]
      rfl
    by_cases hq : u.first.char = '\x22'
    · rw [text_quote hq]
      refine ⟨[u], us, rfl, rfl, fun h => ?_, fun x hx => Except.ok.inj hx ▸ rfl⟩
      rw [second_eq (h u (.head _)), text_quote hq]
      rfl
    by_cases hb : u.first.char = '\\'
    · match us with
      | [] =>
        rw [List.map_nil, List.map_nil, text_lone hb]
        refine ⟨[u], [], rfl, rfl, fun h => ?_, nofun⟩
        rw [second_eq (h u (.head _)), text_lone hb]
        rfl
      | e :: us =>
        rw [List.map_cons, List.map_cons]
        cases he : unescape e.first.char with
        | none =>
          rw [text_badEscape hb he]
          refine ⟨[u, e], us, rfl, rfl, fun h => ?_, nofun⟩
          rw [second_eq (h u (by simp)), second_eq (h e (by simp)), text_badEscape hb he]
          rfl
        | some c =>
          obtain ⟨used, more, rfl, hlit⟩ := exists_text start us e.pos (c :: seen)
          rw [text_escape hb he]
          refine ⟨u :: e :: used, more, rfl, hlit.rest, fun h => ?_, hlit.noWord⟩
          rw [second_eq (h u (by simp)), second_eq (h e (by simp)), text_escape hb he]
          exact hlit.same fun v hv => h v (.tail _ (.tail _ hv))
    · obtain ⟨used, more, rfl, hlit⟩ := exists_text start us u.pos (u.left :: seen)
      rw [text_raw hn hq hb]
      refine ⟨u :: used, more, rfl, hlit.rest, fun h => ?_, hlit.noWord⟩
      rw [second_eq (h u (.head _)), text_raw hn hq hb]
      exact hlit.same fun v hv => h v (.tail _ hv)

theorem TakesLiteral.reads {t : Twin} {used more : List Twin} {l l' : Lexeme}
    (h : TakesLiteral used more l l') (ht : isLetter t.left = false) : Reads t used more l l' where
  rest := h.rest
  alike hsame := by
    rw [h.same (hsame ht)]
    exact ⟨rfl, rfl, rfl⟩
  same hsame := by rw [h.same fun u hu => hsame u (.tail _ hu)]
  span named hfree := absurd hfree (not_isFree named h.noWord)

theorem exists_scan (t : Twin) (us : List Twin) : ∃ used more, us = used ++ more ∧
    Reads t used more (scan t.first (us.map first)) (scan t.second (us.map second)) := by
  cases ht : isLetter t.left with
  | true =>
    rw [scan_of_letter ht, scan_of_letter (t.isLetter_right.trans ht)]
    exact exists_word t us ht
  | false =>
    -- What is no letter is the same in both texts, so both take the same branch.
    have hchar : t.second.char = t.first.char := t.right_eq ht
    unfold scan
    rw [hchar]
    dsimp only
    split
    case h_17 => exact (agrees_withEqual t us t.pos _ _ rfl rfl).reads t
    case h_18 | h_19 => exact (agrees_angle t us ht _ _ _).reads t
    case h_20 => exact (agrees_inequality t us).reads t
    case h_21 =>
      obtain ⟨used, more, hus, hlit⟩ := exists_text t.pos us t.pos []
      exact ⟨used, more, hus, hlit.reads ht⟩
    case h_22 =>
      split
      · rename_i hdigit
        exact (agrees_number t us hdigit).reads t
      · rw [if_neg (by rw [show isLetter t.first.char = false from ht]; exact Bool.false_ne_true),
          if_neg (by rw [show isLetter t.first.char = false from ht]; exact Bool.false_ne_true)]
        exact (agrees_error (List.suffix_refl us) _ t.pos t.pos).reads t
    case h_1 | h_2 | h_3 | h_4 | h_5 | h_6 | h_7 | h_8 =>
      exact (agrees_token (List.suffix_refl us) rfl t.pos t.pos).reads t
    all_goals exact (agrees_withEqual t us t.pos _ _ rfl rfl).reads t

end Twin

/-- The order in which a text is read. -/
def Position.Before (p q : Position) : Prop :=
  p.line < q.line ∨ p.line = q.line ∧ p.column < q.column

namespace Position

theorem Before.trans {p q r : Position} (h : p.Before q) (h' : q.Before r) : p.Before r := by
  unfold Before at *
  omega

theorem before_after (p : Position) (c : Char) : p.Before (p.after c) := by
  unfold Before after
  split
  · exact .inl (Nat.lt_succ_self _)
  · refine .inr ?_
    split
    · refine ⟨rfl, ?_⟩
      simp only [tab, tabStop]
      omega
    · exact ⟨rfl, Nat.lt_succ_self _⟩

end Position

namespace Twin

/-- Each twin stands before those that follow it. -/
def Ordered (ts : List Twin) : Prop := ts.Pairwise fun t u => t.pos.Before u.pos

theorem exists_place {cs ds : List Char} (h : cs.map Char.toLower = ds.map Char.toLower)
    (p : Position) : ∃ ts, Source.place p cs = ts.map first ∧ Source.place p ds = ts.map second ∧
      Ordered ts ∧ ∀ t ∈ ts, p = t.pos ∨ p.Before t.pos := by
  induction cs generalizing ds p with
  | nil =>
    obtain rfl := List.map_eq_nil_iff.1 h.symm
    exact ⟨[], rfl, rfl, .nil, List.forall_mem_nil _⟩
  | cons c cs ih =>
    obtain ⟨d, ds, rfl, hd, hds⟩ := List.map_eq_cons_iff.1 h.symm
    let t : Twin := ⟨p, c, d, hd.symm⟩
    -- Line ends and tabs have no case, so both texts go on at the same place.
    have hnewline : d = '\n' ↔ c = '\n' := t.right_eq_iff (by decide)
    have htab : d = '\t' ↔ c = '\t' := t.right_eq_iff (by decide)
    have hafter : p.after d = p.after c := by simp only [Position.after, hnewline, htab]
    obtain ⟨ts, hfirst, hsecond, hordered, hbefore⟩ := ih hds.symm (p.after c)
    have hrest : ∀ u ∈ ts, p.Before u.pos := fun u hu =>
      (hbefore u hu).elim (fun h => h ▸ p.before_after c) (p.before_after c).trans
    refine ⟨t :: ts, ?_, ?_, .cons hrest hordered,
      List.forall_mem_cons.2 ⟨.inl rfl, fun u hu => .inr (hrest u hu)⟩⟩
    · rw [Source.place, hfirst]
      rfl
    · rw [Source.place, hafter, hsecond]
      rfl

theorem length_lt_of_suffix {t : Twin} {used more ts : List Twin} (h : t :: (used ++ more) <:+ ts) :
    more.length < ts.length := by
  have hle := h.length_le
  rw [List.length_cons, List.length_append] at hle
  omega

theorem exists_start {named : Bool} {ts : List Twin} {s : Span}
    (h : s ∈ Token.freeSpans named (Token.lexemes (ts.map first))) : ∃ t ∈ ts, t.pos = s.start := by
  induction hlength : ts.length using Nat.strongRecOn generalizing ts named with
  | ind n ih =>
    subst hlength
    obtain ⟨us, hsuffix, hskip, -⟩ := exists_skipBlank ts
    cases us with
    | nil =>
      rw [Token.lexemes_of_nil hskip] at h
      cases h
    | cons t us =>
      obtain ⟨used, more, rfl, hreads⟩ := exists_scan t us
      rw [Token.lexemes_of_cons hskip, Token.freeSpans, List.mem_append, hreads.rest] at h
      rcases h with h | h
      · split at h
        · rename_i hfree
          rw [List.mem_singleton.1 h, (hreads.span named hfree).2]
          exact ⟨t, hsuffix.mem (.head _), rfl⟩
        · cases h
      · obtain ⟨u, hu, hpos⟩ := ih _ (length_lt_of_suffix hsuffix) h rfl
        exact ⟨u, hsuffix.mem (.tail _ (List.mem_append_right _ hu)), hpos⟩

theorem exists_last (t : Twin) (used : List Twin) :
    ∃ u ∈ t :: used, lastOf t.pos (used.map first) = u.pos := by
  rw [lastOf, List.getLast?_map]
  cases h : used.getLast? with
  | none => exact ⟨t, .head _, rfl⟩
  | some u => exact ⟨u, .tail _ (List.mem_of_getLast? h), rfl⟩

section

variable {t : Twin} {used more : List Twin} (hordered : Ordered (t :: (used ++ more)))

include hordered

theorem not_covers_used {u : Twin} {s : Span} (hu : u ∈ t :: used) (hs : ∃ v ∈ more, v.pos = s.start) :
    ¬s.covers u.pos := by
  obtain ⟨v, hv, hstart⟩ := hs
  have hbefore : u.pos.Before v.pos := by
    rw [Ordered, ← List.cons_append, List.pairwise_append] at hordered
    exact hordered.2.2 u hu v hv
  unfold Span.covers Position.Before at *
  rw [← hstart]
  omega

theorem not_covers_more {u : Twin} (hu : u ∈ more) :
    ¬Span.covers ⟨t.pos, (lastOf t.pos (used.map first)).advance⟩ u.pos := by
  obtain ⟨v, hv, hlast⟩ := exists_last t used
  have hbefore : v.pos.Before u.pos ∧ (v = t ∨ t.pos.Before v.pos) := by
    rw [Ordered, ← List.cons_append, List.pairwise_append, List.pairwise_cons] at hordered
    exact ⟨hordered.2.2 v hv u hu, (List.mem_cons.1 hv).imp id (hordered.1.1 v)⟩
  rw [hlast]
  unfold Span.covers Position.Before Position.advance at *
  rintro ⟨hline, -, hstop⟩
  rcases hbefore with ⟨h, rfl | h'⟩ <;> dsimp only at hline hstop <;> omega

end

end Twin

/-- What is read in two texts that differ in free words alone: the name of a probe, which `named` tells
to be next, is the same. -/
inductive Lexeme.Recased : Bool → List Lexeme → List Lexeme → Prop
  | nil {named : Bool} : Recased named [] []
  | cons {named : Bool} {l l' : Lexeme} {ls ls' : List Lexeme} (span : l'.span = l.span)
      (folded : l'.result.map (Token.relabel .lower) = l.result.map (Token.relabel .lower))
      (same : l.isFree named = false → l'.result = l.result) (tail : Recased l.opensProbe ls ls') :
      Recased named (l :: ls) (l' :: ls')

/-- Tokens that differ in the case of names alone, and not in the names of probes. -/
inductive Token.Recased : Bool → List (Located Token) → List (Located Token) → Prop
  | nil {named : Bool} : Recased named [] []
  | cons {named : Bool} {t t' : Token} {span : Span} {ts ts' : List (Located Token)}
      (folded : t'.relabel .lower = t.relabel .lower) (same : named = true → t' = t)
      (tail : Recased (t == .keyword .probe) ts ts') : Recased named (⟨t, span⟩ :: ts) (⟨t', span⟩ :: ts')

namespace Twin

theorem recased_lexemes {named : Bool} {ts : List Twin} (hordered : Ordered ts)
    (hwords : ∀ t ∈ ts, t.left ≠ t.right →
      ∃ s ∈ Token.freeSpans named (Token.lexemes (ts.map first)), s.covers t.pos) :
    Lexeme.Recased named (Token.lexemes (ts.map first)) (Token.lexemes (ts.map second)) := by
  induction hlength : ts.length using Nat.strongRecOn generalizing ts named with
  | ind n ih =>
    subst hlength
    obtain ⟨us, hsuffix, hskip, hskip'⟩ := exists_skipBlank ts
    cases us with
    | nil =>
      rw [Token.lexemes_of_nil hskip, Token.lexemes_of_nil hskip']
      exact .nil
    | cons t us =>
      obtain ⟨used, more, rfl, hreads⟩ := exists_scan t us
      rw [Token.lexemes_of_cons hskip, hreads.rest] at hwords ⊢
      rw [Token.lexemes_of_cons hskip']
      have hordered : Ordered (t :: (used ++ more)) := hordered.sublist hsuffix.sublist
      have hmore : Ordered more := hordered.sublist
        (((List.suffix_append used more).trans (List.suffix_cons t _)).sublist)
      generalize scan t.first ((used ++ more).map first) = l at hreads hwords ⊢
      generalize scan t.second ((used ++ more).map second) = l' at hreads ⊢
      -- A difference in what follows is no part of this lexeme, even if its case is free.
      have htail : ∀ u ∈ more, u.left ≠ u.right →
          ∃ s ∈ Token.freeSpans l.opensProbe (Token.lexemes (more.map first)), s.covers u.pos := by
        intro u hu hne
        obtain ⟨s, hs, hcovers⟩ :=
          hwords u (hsuffix.mem (.tail _ (List.mem_append_right _ hu))) hne
        rw [Token.freeSpans, List.mem_append] at hs
        refine hs.elim (fun hs => ?_) fun hs => ⟨s, hs, hcovers⟩
        split at hs
        · rename_i hfree
          rw [List.mem_singleton.1 hs, (hreads.span named hfree).2] at hcovers
          exact absurd hcovers (not_covers_more hordered hu)
        · cases hs
      -- A lexeme whose case is not free lies in no span: those of the later words start after it.
      have hused : l.isFree named = false → ∀ u ∈ t :: used, u.left = u.right := by
        intro hfree u hu
        by_contra hne
        have hmem : u ∈ t :: (used ++ more) := by
          rw [← List.cons_append]
          exact List.mem_append_left _ hu
        obtain ⟨s, hs, hcovers⟩ := hwords u (hsuffix.mem hmem) hne
        rw [Token.freeSpans, if_neg (by simp [hfree]), List.nil_append] at hs
        exact not_covers_used hordered hu (exists_start hs) hcovers
      have halike := hreads.alike fun hletter u hu => by
        refine hused ?_ u (.tail _ hu)
        rw [Bool.eq_false_iff]
        intro hfree
        rw [(hreads.span named hfree).1] at hletter
        cases hletter
      rw [halike.1]
      exact .cons halike.2.1 halike.2.2 (fun hfree => hreads.same (hused hfree))
        (ih _ (length_lt_of_suffix hsuffix) hmore htail rfl)

end Twin

namespace Token

section

variable {l : Lexeme} (ls : List Lexeme)

theorem errors_of_error {e : LexicalError} (h : l.result = .error e) :
    errors (l :: ls) = ⟨e, l.span⟩ :: errors ls := by
  rw [errors, List.filterMap_cons, h]
  rfl

theorem errors_of_ok {t : Token} (h : l.result = .ok t) : errors (l :: ls) = errors ls := by
  rw [errors, List.filterMap_cons, h]
  rfl

theorem tokens_of_ok {t : Token} (h : l.result = .ok t) :
    tokens (l :: ls) = ⟨t, l.span⟩ :: tokens ls := by
  rw [tokens, List.filterMap_cons, h]
  rfl

end

theorem opensProbe_of_ok {l : Lexeme} {t : Token} (h : l.result = .ok t) :
    l.opensProbe = (t == .keyword .probe) := by
  unfold opensProbe
  rw [h]
  cases t with
  | keyword k => cases k <;> rfl
  | _ => rfl

theorem eq_keyword_of_relabel {r : Relabeling} {t : Token} {k : Keyword}
    (h : t.relabel r = .keyword k) : t = .keyword k := by
  cases t <;> first | exact h | cases h

theorem recased_results {named : Bool} {ls ls' : List Lexeme} (h : Lexeme.Recased named ls ls') :
    errors ls' = errors ls ∧ (errors ls = [] → Recased named (tokens ls) (tokens ls')) := by
  induction h with
  | nil => exact ⟨rfl, fun _ => .nil⟩
  | @cons named l l' ls ls' hspan hfolded hsame _ ih =>
    cases hl : l.result with
    | error e =>
      cases hl' : l'.result with
      | ok t' =>
        rw [hl, hl'] at hfolded
        cases hfolded
      | error e' =>
        rw [hl, hl'] at hfolded
        obtain rfl : e' = e := Except.error.inj hfolded
        rw [errors_of_error ls hl, errors_of_error ls' hl', hspan, ih.1]
        exact ⟨rfl, nofun⟩
    | ok t =>
      cases hl' : l'.result with
      | error e' =>
        rw [hl, hl'] at hfolded
        cases hfolded
      | ok t' =>
        rw [hl, hl'] at hfolded hsame
        have ht : t'.relabel .lower = t.relabel .lower := Except.ok.inj hfolded
        rw [errors_of_ok ls hl, errors_of_ok ls' hl', tokens_of_ok ls hl, tokens_of_ok ls' hl', hspan]
        refine ⟨ih.1, fun hnone => .cons ht (fun hnamed => ?_) ?_⟩
        · cases t with
          | keyword k => exact eq_keyword_of_relabel ht
          | _ => exact Except.ok.inj (hsame (by simp [isFree, hl, hnamed]))
        · rw [← opensProbe_of_ok hl]
          exact ih.2 hnone

end Token

namespace Text

theorem byLine_toLower : ∀ cs : List Char,
    byLine (cs.map Char.toLower) = (byLine cs).map Char.toLower
  | [] => rfl
  | c :: cs => by
    have ih := byLine_toLower cs
    by_cases hn : c = '\n'
    · subst hn
      rw [List.map_cons, show '\n'.toLower = '\n' from rfl, byLine_newline, byLine_newline, ih]
      rfl
    by_cases hr : c = '\r' ∧ cs.head? = some '\n'
    · obtain ⟨rfl, hhead⟩ := hr
      obtain ⟨cs, rfl⟩ : ∃ tail, cs = '\n' :: tail := ⟨_, List.eq_cons_of_mem_head? hhead⟩
      rw [List.map_cons, show '\n'.toLower = '\n' from rfl, byLine_newline, byLine_newline] at ih
      rw [List.map_cons, List.map_cons, show '\r'.toLower = '\r' from rfl,
        show '\n'.toLower = '\n' from rfl, byLine_return, byLine_return, ih]
    · have hn' : c.toLower ≠ '\n' := fun h => hn ((toLower_eq_iff (by decide)).1 h)
      have hr' : c.toLower = '\r' → (cs.map Char.toLower).head? ≠ some '\n' := by
        intro hc hhead
        rw [List.head?_map, Option.map_eq_some_iff] at hhead
        obtain ⟨d, hd, hlower⟩ := hhead
        rw [toLower_eq_iff (by decide)] at hc hlower
        exact hr ⟨hc, hlower ▸ hd⟩
      rw [List.map_cons, byLine_cons hn' hr', byLine_cons hn fun hc hhead => hr ⟨hc, hhead⟩, ih,
        List.map_cons]
      simp only [List.map_eq_nil_iff]
      split <;> rfl

theorem glyphs_eq (text : String) : glyphs text = Source.place {} (byLine text.toList) := by
  simp [glyphs, Source.glyphs, Source.ofText, lines, byLine, List.flatMap_map]

end Text

namespace Token

/-- Both texts have the same lexical errors, or tokens that differ in the case of names alone. -/
theorem ofSource_recased {a b : String} (h : Text.Recased a b) (name : String) :
    (∃ es, ofSource (.ofText name a) = .error es ∧ ofSource (.ofText name b) = .error es) ∨
    ∃ ts ts', ofSource (.ofText name a) = .ok ts ∧ ofSource (.ofText name b) = .ok ts' ∧
      Recased false ts ts' := by
  have hline : (Text.byLine a.toList).map Char.toLower = (Text.byLine b.toList).map Char.toLower := by
    rw [← Text.byLine_toLower, ← Text.byLine_toLower, h.folded]
  obtain ⟨twins, hfirst, hsecond, hordered, -⟩ := Twin.exists_place hline {}
  rw [← Text.glyphs_eq] at hfirst hsecond
  have hwords := h.inWords
  rw [hfirst, hsecond, List.zip_map', List.forall_mem_map] at hwords
  obtain ⟨herrors, htokens⟩ := recased_results (Twin.recased_lexemes hordered hwords)
  have hglyphs : ∀ text, (Source.ofText name text).glyphs = Text.glyphs text := fun _ => rfl
  simp only [ofSource, hglyphs, hfirst, hsecond, herrors]
  cases hnone : errors (lexemes (twins.map Twin.first)) with
  | nil => exact .inr ⟨_, _, rfl, rfl, htokens hnone⟩
  | cons e es => exact .inl ⟨_, rfl, rfl⟩

end Token

end TraceScript
