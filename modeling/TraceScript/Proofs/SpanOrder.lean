import TraceScript.Proofs.Recased

namespace TraceScript

open Source (place)

namespace Position

/-- Two places of one line, of which the first comes first. -/
def LeftOf (p q : Position) : Prop := p.line = q.line ∧ p.column < q.column

/-- Places are compared by their lines, then by their columns. -/
def UpTo (p q : Position) : Prop := p.line < q.line ∨ p.line = q.line ∧ p.column ≤ q.column

theorem UpTo.refl (p : Position) : p.UpTo p := .inr ⟨rfl, Nat.le_refl _⟩

theorem UpTo.trans {p q r : Position} (h : p.UpTo q) (h' : q.UpTo r) : p.UpTo r := by
  unfold UpTo at *
  omega

theorem LeftOf.trans {p q r : Position} (h : p.LeftOf q) (h' : q.LeftOf r) : p.LeftOf r := by
  unfold LeftOf at *
  omega

theorem LeftOf.upTo {p q : Position} (h : p.LeftOf q) : p.UpTo q := by
  unfold LeftOf UpTo at *
  omega

theorem LeftOf.before_of_upTo {p q r : Position} (h : p.LeftOf q) (h' : q.UpTo r) : p.Before r := by
  unfold LeftOf UpTo Before at *
  omega

theorem leftOf_after (p : Position) {c : Char} (hc : c ≠ '\n') : p.LeftOf (p.after c) := by
  have h := p.before_after c
  have hline : (p.after c).line = p.line := by
    unfold after
    rw [if_neg hc]
    split <;> rfl
  unfold Before LeftOf at *
  omega

theorem advance_upTo_after (p : Position) (c : Char) : p.advance.UpTo (p.after c) := by
  have h := p.before_after c
  unfold Before UpTo advance at *
  dsimp only
  omega

theorem fits_iff {p : Position} :
    p.fits = true ↔ p.line < UInt32.size ∧ p.column < UInt32.size := by
  rw [fits, Bool.and_eq_true, decide_eq_true_eq, decide_eq_true_eq]

theorem LeftOf.advance_upTo {p q : Position} (h : p.LeftOf q) : p.advance.UpTo q := by
  unfold LeftOf UpTo advance at *
  dsimp only
  omega

end Position

namespace Span

/-- Spans of at least one column of one line, in the order of the text. None reaches into a later
one. -/
structure InOrder (ss : List Span) : Prop where
  proper : ∀ s ∈ ss, s.start.LeftOf s.stop
  increasing : ss.Pairwise fun s t => s.start.Before t.start
  apart : ss.Pairwise fun s t => s.stop.UpTo t.start

namespace InOrder

protected theorem nil : InOrder [] := ⟨List.forall_mem_nil _, .nil, .nil⟩

protected theorem cons {s : Span} {ss : List Span} (hs : s.start.LeftOf s.stop)
    (hlater : ∀ t ∈ ss, s.stop.UpTo t.start) (h : InOrder ss) : InOrder (s :: ss) where
  proper := List.forall_mem_cons.2 ⟨hs, h.proper⟩
  increasing := .cons (fun t ht => hs.before_of_upTo (hlater t ht)) h.increasing
  apart := .cons hlater h.apart

theorem sublist {ss ts : List Span} (h : InOrder ts) (hsub : ss.Sublist ts) : InOrder ss where
  proper s hs := h.proper s (hsub.mem hs)
  increasing := h.increasing.sublist hsub
  apart := h.apart.sublist hsub

end InOrder

end Span

namespace Lexeme

/-- A lexeme of a text whose next character stands at a place: its span lies behind that place on one
line, and before all that follows. -/
structure FitsAt (p : Position) (l : Lexeme) : Prop where
  proper : l.span.start.LeftOf l.span.stop
  start : p.UpTo l.span.start
  rest : ∃ q cs, l.rest = place q cs ∧ l.span.stop.UpTo q

variable {p q start last : Position} {g : Glyph} {c : Char} {cs : List Char}

theorem fitsAt_upTo (result : Except LexicalError Token) (hstart : p.UpTo start)
    (hlast : start = last ∨ start.LeftOf last) (hq : last.advance.UpTo q) (cs : List Char) :
    FitsAt p (upTo result start last (place q cs)) where
  proper := by
    have hcolumn : last.LeftOf last.advance := ⟨rfl, Nat.lt_succ_self _⟩
    rcases hlast with rfl | hlast
    · exact hcolumn
    · exact hlast.trans hcolumn
  start := hstart
  rest := ⟨q, cs, rfl, hq⟩

theorem fitsAt_single (result : Except LexicalError Token) (p : Position) (c : Char) (cs : List Char) :
    FitsAt p (upTo result p p (place (p.after c) cs)) :=
  fitsAt_upTo result (.refl p) (.inl rfl) (p.advance_upTo_after c) cs

theorem run_on_line {f : Char → Bool} (hf : f '\n' = false) (hq : p.LeftOf q) (cs : List Char) :
    ∃ r ds, (place q cs).dropWhile (f ·.char) = place r ds ∧
      (p = lastOf p ((place q cs).takeWhile (f ·.char)) ∨
        p.LeftOf (lastOf p ((place q cs).takeWhile (f ·.char)))) ∧
      (lastOf p ((place q cs).takeWhile (f ·.char))).LeftOf r := by
  induction cs generalizing p q with
  | nil => exact ⟨q, [], rfl, .inl rfl, hq⟩
  | cons c cs ih =>
    by_cases hc : f c
    · have hnewline : c ≠ '\n' := by
        rintro rfl
        rw [hf] at hc
        cases hc
      have hlast : lastOf p ((place q (c :: cs)).takeWhile (f ·.char)) =
          lastOf q ((place (q.after c) cs).takeWhile (f ·.char)) := by
        rw [place, List.takeWhile_cons_of_pos (by exact hc), lastOf, lastOf, List.getLast?_cons,
          Option.map_some, Option.getD_some]
        cases ((place (q.after c) cs).takeWhile (f ·.char)).getLast? <;> rfl
      obtain ⟨r, ds, hdrop, hline, hr⟩ := ih (q.leftOf_after hnewline)
      rw [hlast]
      refine ⟨r, ds, ?_, .inr ?_, hr⟩
      · rw [place, List.dropWhile_cons_of_pos (by exact hc), hdrop]
      · rcases hline with hline | hline
        · exact hline ▸ hq
        · exact hq.trans hline
    · rw [place, List.takeWhile_cons_of_neg (by exact hc), List.dropWhile_cons_of_neg (by exact hc)]
      exact ⟨q, c :: cs, rfl, .inl rfl, hq⟩

theorem fitsAt_run {f : Char → Bool} (hf : f '\n' = false) (hq : p.LeftOf q)
    (result : Except LexicalError Token) (cs : List Char) :
    FitsAt p (upTo result p (lastOf p ((place q cs).takeWhile (f ·.char)))
      ((place q cs).dropWhile (f ·.char))) := by
  obtain ⟨r, ds, hdrop, hline, hr⟩ := run_on_line hf hq cs
  rw [hdrop]
  exact fitsAt_upTo result (.refl p) hline hr.advance_upTo ds

/-- The rest of a string, of which everything up to `last` lies on one line. After a wrong escape the
span starts at the backslash, and it may end with the newline that was escaped. -/
theorem fitsAt_text (hlast : start = last ∨ start.LeftOf last) (hq : last.LeftOf q) (seen : List Char)
    (cs : List Char) : FitsAt start (text start last seen (place q cs)) := by
  have hstart : start.LeftOf q := by
    rcases hlast with rfl | hlast
    · exact hq
    · exact hlast.trans hq
  -- By induction on the number of characters, since an escape takes two of them.
  induction hn : cs.length using Nat.strongRecOn generalizing last q seen cs with
  | ind n ih =>
    subst hn
    cases cs with
    | nil => exact fitsAt_upTo _ (.refl start) hlast hq.advance_upTo []
    | cons c cs =>
      rw [place]
      by_cases hnewline : c = '\n'
      · rw [text_newline hnewline]
        exact fitsAt_upTo _ (.refl start) (.inr hstart) (q.advance_upTo_after c) cs
      have hafter := q.leftOf_after hnewline
      by_cases hquote : c = '\x22'
      · rw [text_quote hquote]
        exact fitsAt_upTo _ (.refl start) (.inr hstart) (q.advance_upTo_after c) cs
      by_cases hescape : c = '\\'
      · cases cs with
        | nil =>
          rw [place, text_lone hescape]
          exact fitsAt_upTo _ (.refl start) (.inr hstart) hafter.advance_upTo []
        | cons e cs =>
          rw [place]
          cases he : unescape e with
          | none =>
            rw [text_badEscape hescape he]
            exact fitsAt_upTo _ hstart.upTo (.inr hafter) ((q.after c).advance_upTo_after e) cs
          | some d =>
            have hend : e ≠ '\n' := by
              rintro rfl
              cases he
            rw [text_escape hescape he]
            refine ih cs.length ?_ (.inr (hstart.trans hafter)) ((q.after c).leftOf_after hend) _ cs
              ((hstart.trans hafter).trans ((q.after c).leftOf_after hend)) rfl
            simp only [List.length_cons]
            omega
      · rw [text_raw hnewline hquote hescape]
        exact ih cs.length (Nat.lt_succ_self _) (.inr hstart) hafter _ cs (hstart.trans hafter) rfl

theorem fitsAt_withEqual (hlast : g.pos = last ∨ g.pos.LeftOf last) (hq : last.LeftOf q)
    (eq otherwise : Token) (cs : List Char) :
    FitsAt g.pos (withEqual g last (place q cs) eq otherwise) := by
  have hstart : g.pos.LeftOf q := by
    rcases hlast with hlast | hlast
    · exact hlast ▸ hq
    · exact hlast.trans hq
  unfold withEqual
  cases cs with
  | nil => exact fitsAt_upTo _ (.refl _) hlast hq.advance_upTo []
  | cons e cs =>
    dsimp only [place]
    split
    · exact fitsAt_upTo _ (.refl _) (.inr hstart) (q.advance_upTo_after e) cs
    · exact fitsAt_upTo _ (.refl _) hlast hq.advance_upTo (e :: cs)

theorem fitsAt_angle (hc : g.char ≠ '\n') (hq : g.pos.LeftOf q) (shift : ArithOp)
    (orEqual strict : CompareOp) (cs : List Char) :
    FitsAt g.pos (angle g (place q cs) shift orEqual strict) := by
  unfold angle
  cases cs with
  | nil => exact fitsAt_upTo _ (.refl _) (.inl rfl) hq.advance_upTo []
  | cons e cs =>
    dsimp only [place]
    split
    · rename_i he
      exact fitsAt_withEqual (.inr hq) (q.leftOf_after (he ▸ hc)) _ _ cs
    · exact fitsAt_withEqual (.inl rfl) hq _ _ (e :: cs)

theorem fitsAt_inequality (hq : g.pos.LeftOf q) (cs : List Char) :
    FitsAt g.pos (inequality g (place q cs)) := by
  unfold inequality
  cases cs with
  | nil => exact fitsAt_upTo _ (.refl _) (.inl rfl) hq.advance_upTo []
  | cons e cs =>
    dsimp only [place]
    split
    · exact fitsAt_upTo _ (.refl _) (.inr hq) (q.advance_upTo_after e) cs
    · exact fitsAt_upTo _ (.refl _) (.inl rfl) hq.advance_upTo (e :: cs)

theorem fitsAt_scan (p : Position) (hc : c ≠ '\n') (cs : List Char) :
    FitsAt p (scan ⟨c, p⟩ (place (p.after c) cs)) := by
  have hq := p.leftOf_after hc
  unfold scan
  dsimp only
  split
  case h_18 | h_19 => exact fitsAt_angle (g := ⟨_, p⟩) hc hq _ _ _ cs
  case h_20 => exact fitsAt_inequality (g := ⟨_, p⟩) hq cs
  case h_21 => exact fitsAt_text (.inl rfl) hq [] cs
  case h_22 =>
    split
    · exact fitsAt_run (f := isDigit) rfl hq _ cs
    · split
      · exact fitsAt_run (f := fun c => isLetter c || isDigit c) rfl hq _ cs
      · exact fitsAt_single _ p _ cs
  case h_1 | h_2 | h_3 | h_4 | h_5 | h_6 | h_7 | h_8 => exact fitsAt_single _ p _ cs
  all_goals exact fitsAt_withEqual (g := ⟨_, p⟩) (.inl rfl) hq _ _ cs

/-- A lexeme that spans from one glyph of a text to another and leaves glyphs of that text. -/
structure Within (gs : List Glyph) (l : Lexeme) : Prop where
  start : l.span.start ∈ gs.map Glyph.pos
  stop : ∃ q ∈ gs.map Glyph.pos, l.span.stop = q.advance
  rest : l.rest ⊆ gs

variable {gs rest more : List Glyph} {l : Lexeme}

theorem Within.mono (h : l.Within rest) (hsub : rest ⊆ gs) : l.Within gs := by
  obtain ⟨q, hq, hstop⟩ := h.stop
  exact ⟨List.map_subset _ hsub h.start, ⟨q, List.map_subset _ hsub hq, hstop⟩,
    List.Subset.trans h.rest hsub⟩

theorem within_upTo (result : Except LexicalError Token) (hstart : start ∈ gs.map Glyph.pos)
    (hlast : last ∈ gs.map Glyph.pos) (hsub : rest ⊆ gs) : Within gs (upTo result start last rest) :=
  ⟨hstart, ⟨last, hlast, rfl⟩, hsub⟩

theorem lastOf_mem (hp : p ∈ gs.map Glyph.pos) (hsub : more ⊆ gs) : lastOf p more ∈ gs.map Glyph.pos := by
  unfold lastOf
  cases h : more.getLast? with
  | none => exact hp
  | some g => exact List.mem_map_of_mem (hsub (List.mem_of_getLast? h))

theorem within_run (result : Except LexicalError Token) (f : Glyph → Bool) (g : Glyph)
    (rest : List Glyph) :
    Within (g :: rest) (upTo result g.pos (lastOf g.pos (rest.takeWhile f)) (rest.dropWhile f)) := by
  have hg : g.pos ∈ (g :: rest).map Glyph.pos := List.mem_cons_self
  exact within_upTo result hg
    (lastOf_mem hg (List.subset_cons_of_subset g (List.takeWhile_sublist f).subset))
    (List.subset_cons_of_subset g (List.dropWhile_sublist f).subset)

theorem within_text (seen : List Char) (hstart : start ∈ gs.map Glyph.pos)
    (hlast : last ∈ gs.map Glyph.pos) (hsub : rest ⊆ gs) :
    Within gs (text start last seen rest) := by
  fun_induction text start last seen rest <;> grind [within_upTo]

theorem within_withEqual (hg : g ∈ gs) (hlast : last ∈ gs.map Glyph.pos) (hsub : rest ⊆ gs)
    (eq otherwise : Token) : Within gs (withEqual g last rest eq otherwise) := by
  have hpos : g.pos ∈ gs.map Glyph.pos := List.mem_map_of_mem hg
  unfold withEqual
  cases rest with
  | nil => exact within_upTo _ hpos hlast hsub
  | cons e rest =>
    obtain ⟨he, hrest⟩ := List.cons_subset.1 hsub
    dsimp only
    split
    · exact within_upTo _ hpos (List.mem_map_of_mem he) hrest
    · exact within_upTo _ hpos hlast hsub

theorem within_scan (g : Glyph) (rest : List Glyph) : Within (g :: rest) (scan g rest) := by
  have hg : g ∈ g :: rest := List.mem_cons_self
  have hpos : g.pos ∈ (g :: rest).map Glyph.pos := List.mem_cons_self
  have hsub : rest ⊆ g :: rest := List.subset_cons_self g rest
  unfold scan
  dsimp only
  split
  case h_18 | h_19 =>
    unfold angle
    cases rest with
    | nil => exact within_upTo _ hpos hpos hsub
    | cons e rest =>
      obtain ⟨he, hrest⟩ := List.cons_subset.1 hsub
      dsimp only
      split
      · exact within_withEqual hg (List.mem_map_of_mem he) hrest _ _
      · exact within_withEqual hg hpos hsub _ _
  case h_20 =>
    unfold inequality
    cases rest with
    | nil => exact within_upTo _ hpos hpos hsub
    | cons e rest =>
      obtain ⟨he, hrest⟩ := List.cons_subset.1 hsub
      dsimp only
      split
      · exact within_upTo _ hpos (List.mem_map_of_mem he) hrest
      · exact within_upTo _ hpos hpos hsub
  case h_21 => exact within_text [] hpos hpos hsub
  case h_22 =>
    split
    · exact within_run _ _ g rest
    · split
      · exact within_run _ _ g rest
      · exact within_upTo _ hpos hpos hsub
  case h_1 | h_2 | h_3 | h_4 | h_5 | h_6 | h_7 | h_8 => exact within_upTo _ hpos hpos hsub
  all_goals exact within_withEqual hg hpos hsub _ _

end Lexeme

namespace Token

theorem exists_skip (p : Position) (cs : List Char) :
    (∃ q ds, skipBlank (place p cs) = place q ds ∧ p.UpTo q ∧ ∀ c ∈ ds.head?, Text.isBlank c = false) ∧
      ∃ q ds, skipComment (place p cs) = place q ds ∧ p.UpTo q ∧
        ∀ c ∈ ds.head?, Text.isBlank c = false := by
  induction cs generalizing p with
  | nil => exact ⟨⟨p, [], rfl, .refl p, by simp⟩, p, [], rfl, .refl p, by simp⟩
  | cons c cs ih =>
    have hafter : p.UpTo (p.after c) := by
      have h := p.before_after c
      unfold Position.Before Position.UpTo at *
      omega
    obtain ⟨⟨q, ds, hblank, hq, hds⟩, q', ds', hcomment, hq', hds'⟩ := ih (p.after c)
    rw [place, skipBlank, skipComment]
    constructor
    · split
      · exact ⟨q, ds, hblank, hafter.trans hq, hds⟩
      · split
        · exact ⟨q', ds', hcomment, hafter.trans hq', hds'⟩
        · rename_i hc _
          refine ⟨p, c :: cs, rfl, .refl p, fun d hd => ?_⟩
          obtain rfl := Option.some.inj hd
          simpa using hc
    · split
      · exact ⟨q, ds, hblank, hafter.trans hq, hds⟩
      · exact ⟨q', ds', hcomment, hafter.trans hq', hds'⟩

/-- The run over a text: everything that is read lies behind the place where reading starts, in
order. -/
theorem spans_inOrder (p : Position) (cs : List Char) :
    Span.InOrder ((lexemes (place p cs)).map Lexeme.span) ∧
      ∀ l ∈ lexemes (place p cs), p.UpTo l.span.start := by
  induction hn : (place p cs).length using Nat.strongRecOn generalizing p cs with
  | ind n ih =>
    subst hn
    obtain ⟨⟨q, ds, hskip, hq, hds⟩, -⟩ := exists_skip p cs
    cases ds with
    | nil =>
      rw [lexemes_of_nil hskip]
      exact ⟨.nil, List.forall_mem_nil _⟩
    | cons c ds =>
      have hshorter := skipBlank_length (place p cs)
      rw [hskip, place, List.length_cons] at hshorter
      have hscanned := Lexeme.scan_rest_length ⟨c, q⟩ (place (q.after c) ds)
      rw [lexemes_of_cons hskip]
      have hnewline : c ≠ '\n' := by
        rintro rfl
        exact absurd (hds _ rfl) (by decide)
      obtain ⟨hproper, hstart, r, es, hrest, hr⟩ := Lexeme.fitsAt_scan q hnewline ds
      rw [hrest] at hscanned ⊢
      obtain ⟨horder, hlater⟩ := ih (place r es).length (by omega) r es rfl
      have hbehind : ∀ t ∈ (lexemes (place r es)).map Lexeme.span,
          (Lexeme.scan ⟨c, q⟩ (place (q.after c) ds)).span.stop.UpTo t.start := by
        intro t ht
        obtain ⟨l, hl, rfl⟩ := List.mem_map.1 ht
        exact hr.trans (hlater l hl)
      refine ⟨.cons hproper hbehind horder, List.forall_mem_cons.2 ⟨hq.trans hstart, fun l hl => ?_⟩⟩
      have hspan := hproper.upTo.trans (hbehind l.span (List.mem_map_of_mem hl))
      exact (hq.trans hstart).trans hspan

theorem spans_sublist {α : Type} {f : Lexeme → Option (Located α)}
    (hf : ∀ l x, f l = some x → x.span = l.span) (ls : List Lexeme) :
    ((ls.filterMap f).map Located.span).Sublist (ls.map Lexeme.span) := by
  induction ls with
  | nil => exact .slnil
  | cons l ls ih =>
    cases hl : f l with
    | none =>
      rw [List.filterMap_cons_none hl]
      exact ih.cons _
    | some x =>
      rw [List.filterMap_cons_some hl, List.map_cons, List.map_cons, hf l x hl]
      exact ih.cons_cons _

theorem skip_subset (gs : List Glyph) : skipBlank gs ⊆ gs ∧ skipComment gs ⊆ gs := by
  induction gs with
  | nil => exact ⟨fun _ h => h, fun _ h => h⟩
  | cons g gs ih =>
    rw [skipBlank, skipComment]
    refine ⟨?_, ?_⟩
    · split
      · exact List.subset_cons_of_subset g ih.1
      · split
        · exact List.subset_cons_of_subset g ih.2
        · exact List.Subset.refl _
    · split
      · exact List.subset_cons_of_subset g ih.1
      · exact List.subset_cons_of_subset g ih.2

theorem lexemes_within (gs : List Glyph) : ∀ l ∈ lexemes gs, l.Within gs := by
  induction hn : gs.length using Nat.strongRecOn generalizing gs with
  | ind n ih =>
    subst hn
    cases hskip : skipBlank gs with
    | nil =>
      rw [lexemes_of_nil hskip]
      exact List.forall_mem_nil _
    | cons g rest =>
      have hsub := (skip_subset gs).1
      have hshorter := skipBlank_length gs
      rw [hskip] at hsub hshorter
      have hscan := (Lexeme.within_scan g rest).mono hsub
      have hlength := Lexeme.scan_rest_length g rest
      rw [List.length_cons] at hshorter
      rw [lexemes_of_cons hskip]
      exact List.forall_mem_cons.2
        ⟨hscan, fun l hl => (ih _ (by omega) _ rfl l hl).mono hscan.rest⟩

end Token

theorem Lexeme.Within.fits {source : Source} {l : Lexeme} (h : l.Within source.glyphs)
    (hfits : source.fits = true) : l.span.fits = true := by
  have hglyph : ∀ q ∈ source.glyphs.map Glyph.pos, q.fits = true ∧ q.advance.fits = true := by
    intro q hq
    obtain ⟨g, hg, rfl⟩ := List.mem_map.1 hq
    have hboth := List.all_eq_true.1 hfits g hg
    exact Bool.and_eq_true_iff.1 (Bool.and_eq_true_iff.1 hboth).1
  obtain ⟨q, hq, hstop⟩ := h.stop
  rw [Span.fits, hstop, (hglyph _ h.start).1, (hglyph q hq).2]
  rfl

namespace Source

/-- The columns that a character takes at most. -/
def width (c : Char) : Nat := if c = '\t' then Position.tabStop else 1

theorem after_le_width {p : Position} (hp : 0 < p.column) (c : Char) :
    0 < (p.after c).column ∧ (p.after c).line ≤ p.line + width c ∧
      (p.after c).column ≤ p.column + width c := by
  unfold Position.after width
  split
  · subst c
    exact ⟨Nat.one_pos, Nat.le_refl _, Nat.le_add_left ..⟩
  · split
    · dsimp only [Position.tab, Position.tabStop]
      omega
    · exact ⟨Nat.succ_pos _, Nat.le_add_right .., Nat.le_refl _⟩

theorem place_fits {p : Position} (hp : 0 < p.column) {cs : List Char}
    (hline : p.line + (cs.map width).sum < UInt32.size)
    (hcolumn : p.column + (cs.map width).sum < UInt32.size) :
    ((place p cs).all fun g => (Span.single g.pos).fits && (g.pos.after g.char).fits) = true := by
  induction cs generalizing p with
  | nil => rfl
  | cons c cs ih =>
    rw [List.map_cons, List.sum_cons] at hline hcolumn
    obtain ⟨hpos, hl, hc⟩ := after_le_width hp c
    have hwidth : 0 < width c := by
      unfold width Position.tabStop
      split <;> decide
    rw [place, List.all_cons, ih hpos (by omega) (by omega), Bool.and_true]
    rw [Span.fits, Bool.and_eq_true, Bool.and_eq_true, Position.fits_iff, Position.fits_iff,
      Position.fits_iff]
    dsimp only [Span.single, Position.advance]
    omega

/-- A text is read if its characters, with each tab as wide as it can be, do not fill the range of a
position. -/
theorem fits_of_width (s : Source)
    (h : ((s.glyphs.map Glyph.char).map width).sum + 1 < UInt32.size) : s.fits = true := by
  rw [glyphs, Token.map_char_place] at h
  exact place_fits Nat.one_pos (by rwa [Nat.add_comm]) (by rwa [Nat.add_comm])

end Source

namespace Token

/-- The spans of the tokens of a source, or of its errors, each take at least one column of a single
line, start in strictly increasing order, and end at or before the start of every later one. They are
made of 32-bit numbers, which bound the texts that are read. -/
theorem ofSource?_spans_inOrder (source : Source) :
    match ofSource? source with
    | none => UInt32.size ≤ ((source.glyphs.map Glyph.char).map Source.width).sum + 1
    | some (.ok ts) => Span.InOrder (ts.map Located.span) ∧ ∀ t ∈ ts, t.span.fits = true
    | some (.error es) => Span.InOrder (es.map Located.span) ∧ ∀ e ∈ es, e.span.fits = true := by
  by_cases hfits : source.fits = true
  case neg =>
    rw [ofSource?, if_neg hfits]
    exact Nat.le_of_not_lt fun h => hfits (source.fits_of_width h)
  case pos =>
    have horder := (spans_inOrder {} (source.lines.flatMap fun l => l.toList ++ ['\n'])).1
    have hall : ∀ s ∈ (lexemes source.glyphs).map Lexeme.span, s.fits = true := by
      intro s hs
      obtain ⟨l, hl, rfl⟩ := List.mem_map.1 hs
      exact (lexemes_within _ l hl).fits hfits
    have hfound {α : Type} {f : Lexeme → Option (Located α)}
        (hf : ∀ l x, f l = some x → x.span = l.span) :
        let found := (lexemes source.glyphs).filterMap f
        Span.InOrder (found.map Located.span) ∧ ∀ x ∈ found, x.span.fits = true :=
      ⟨horder.sublist (spans_sublist hf _),
        fun x hx => hall _ ((spans_sublist hf _).mem (List.mem_map_of_mem hx))⟩
    have htokens : Span.InOrder ((tokens (lexemes source.glyphs)).map Located.span) ∧
        ∀ t ∈ tokens (lexemes source.glyphs), t.span.fits = true := by
      refine hfound fun l x hx => ?_
      split at hx <;> cases hx
      rfl
    have herrors : Span.InOrder ((errors (lexemes source.glyphs)).map Located.span) ∧
        ∀ e ∈ errors (lexemes source.glyphs), e.span.fits = true := by
      refine hfound fun l x hx => ?_
      split at hx <;> cases hx
      rfl
    rw [ofSource?, if_pos hfits, ofSource]
    cases h : errors (lexemes source.glyphs) with
    | nil => exact htokens
    | cons e es =>
      rw [h] at herrors
      exact herrors

end Token

end TraceScript
