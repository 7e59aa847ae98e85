import TraceScript.Compile
import TraceScript.Proofs.Recased

namespace TraceScript

/-- The token that was found may be a name; the one that was wanted never is. -/
def SyntaxError.relabel (r : Relabeling) : SyntaxError → SyntaxError
  | unexpectedToken expected found => unexpectedToken expected (found.relabel r)
  | e => e

namespace Token

theorem eq_or_names {t t' : Token} (h : t'.relabel .lower = t.relabel .lower) :
    t' = t ∨ ∃ n n' : Name, t = .name n ∧ t' = .name n' ∧ n'.lower = n.lower := by
  cases t with
  | name n =>
    cases t' with
    | name n' => exact .inr ⟨n, n', rfl, rfl, Token.name.inj h⟩
    | _ => cases h
  | _ => cases t' <;> first | exact .inl h | cases h

theorem exists_name {t : Token} {n : Name} (h : t.relabel .lower = (name n).relabel .lower) :
    ∃ n', t = .name n' ∧ n'.lower = n.lower := by
  obtain rfl | ⟨_, n', ⟨⟩, rfl, hlower⟩ := eq_or_names h
  · exact ⟨n, rfl, rfl⟩
  · exact ⟨n', rfl, hlower⟩

theorem eq_iff_of_relabel {t t' x : Token} (h : t'.relabel .lower = t.relabel .lower)
    (hx : ∀ n, x ≠ .name n) : t' = x ↔ t = x := by
  obtain rfl | ⟨n, n', rfl, rfl, -⟩ := eq_or_names h
  · rfl
  · exact ⟨fun h => absurd h.symm (hx n'), fun h => absurd h.symm (hx n)⟩

end Token

namespace Cursor

/-- Two readings succeed with related results, or fail at the same place with the same error up to
the case of names. -/
inductive Outcome.Alike {α β : Type} (R : α → β → Prop) : Outcome α → Outcome β → Prop
  | ok {a : α} {b : β} : R a b → Alike R (.ok a) (.ok b)
  | error {e e' : SyntaxError} {span : Span} : e'.relabel .lower = e.relabel .lower →
      Alike R (.error ⟨e, span⟩) (.error ⟨e', span⟩)

theorem Outcome.Alike.bind {α β γ δ : Type} {R : α → β → Prop} {S : γ → δ → Prop} {x : Outcome α}
    {y : Outcome β} {f : α → Outcome γ} {g : β → Outcome δ} (h : Alike R x y)
    (hf : ∀ a b, R a b → Alike S (f a) (g b)) : Alike S (x >>= f) (y >>= g) := by
  cases h with
  | ok hr => exact hf _ _ hr
  | error he => exact .error he

theorem Outcome.Alike.mono {α β : Type} {R S : α → β → Prop} {x : Outcome α} {y : Outcome β}
    (h : Alike R x y) (hrs : ∀ a b, R a b → S a b) : Alike S x y := by
  cases h with
  | ok hr => exact .ok (hrs _ _ hr)
  | error he => exact .error he

/-- The same place in two lists of tokens, where `named` tells that the name of a probe is next. -/
structure Recased (named : Bool) (c d : Cursor) : Prop where
  rest : Token.Recased named c.rest d.rest
  last : d.last = c.last

def Alike (c d : Cursor) : Prop := ∃ named, Recased named c d

variable {named : Bool} {c d : Cursor}

theorem Alike.peek (h : c.Alike d) :
    d.peek.map (Token.relabel .lower) = c.peek.map (Token.relabel .lower) := by
  obtain ⟨named, hrest, -⟩ := h
  obtain ⟨ts, last⟩ := c
  obtain ⟨ts', last'⟩ := d
  cases hrest with
  | nil => rfl
  | cons hfolded _ _ => exact congrArg some hfolded

theorem Alike.sees (h : c.Alike d) {t : Token} (ht : ∀ n, t ≠ .name n) : d.sees t = c.sees t := by
  obtain ⟨named, hrest, -⟩ := h
  obtain ⟨ts, last⟩ := c
  obtain ⟨ts', last'⟩ := d
  cases hrest with
  | nil => rfl
  | cons hfolded _ _ =>
    rw [Bool.eq_iff_iff]
    simpa [Cursor.sees, Cursor.peek] using Token.eq_iff_of_relabel hfolded ht

theorem Alike.binaryOp? (h : c.Alike d) :
    d.peek.bind Token.binaryOp? = c.peek.bind Token.binaryOp? := by
  have hop : ∀ t : Token, (t.relabel .lower).binaryOp? = t.binaryOp? := by
    intro t
    cases t <;> rfl
  have hpeek := congrArg (Option.bind · Token.binaryOp?) h.peek
  simpa only [Option.bind_map, Function.comp_def, hop] using hpeek

theorem Alike.startsExpr (h : c.Alike d) :
    d.peek.all Token.startsExpr = c.peek.all Token.startsExpr := by
  have hstarts : ∀ t : Token, (t.relabel .lower).startsExpr = t.startsExpr := by
    intro t
    cases t <;> rfl
  have hpeek := congrArg (Option.all Token.startsExpr) h.peek
  simpa only [Option.all_map, Function.comp_def, hstarts] using hpeek

/-- Related results, and the same place after them. -/
def Pairs {α β : Type} (R : α → β → Prop) {p q : Cursor → Prop} (x : α × Subtype p)
    (y : β × Subtype q) : Prop := R x.1 y.1 ∧ x.2.val.Alike y.2.val

theorem Alike.isEmpty (h : c.Alike d) : d.rest.isEmpty = c.rest.isEmpty := by
  obtain ⟨named, hrest, -⟩ := h
  obtain ⟨ts, last⟩ := c
  obtain ⟨ts', last'⟩ := d
  cases hrest <;> rfl

theorem Alike.last (h : c.Alike d) : d.last = c.last := h.elim fun _ h => h.last

/-- Two tokens at the same place that differ in case alone. -/
structure AlikeTokens (t t' : Located Token) : Prop where
  span : t'.span = t.span
  folded : t'.value.relabel .lower = t.value.relabel .lower

theorem Recased.next (h : c.Recased named d) :
    Outcome.Alike (Pairs fun t t' => AlikeTokens t t' ∧ (named = true → t' = t)) c.next d.next := by
  obtain ⟨ts, last⟩ := c
  obtain ⟨ts', last'⟩ := d
  obtain ⟨hrest, rfl : last' = last⟩ := h
  cases hrest with
  | nil => exact .error rfl
  | cons hfolded hsame htail =>
    exact .ok ⟨⟨⟨rfl, hfolded⟩, fun hnamed => by rw [hsame hnamed]⟩, _, htail, rfl⟩

theorem Alike.next (h : c.Alike d) : Outcome.Alike (Pairs AlikeTokens) c.next d.next := by
  obtain ⟨named, h⟩ := h
  exact h.next.mono fun _ _ h => ⟨h.1.1, h.2⟩

theorem Recased.expect (h : c.Recased named d) {t : Token} (ht : ∀ n, t ≠ .name n) :
    Outcome.Alike (fun x y => x.val.Recased (t == .keyword .probe) y.val) (c.expect t)
      (d.expect t) := by
  obtain ⟨ts, last⟩ := c
  obtain ⟨ts', last'⟩ := d
  obtain ⟨hrest, rfl : last' = last⟩ := h
  cases hrest with
  | nil => exact .error rfl
  | @cons _ u u' span ts ts' hfolded hsame htail =>
    have hiff := Token.eq_iff_of_relabel hfolded ht
    change Outcome.Alike _ (if u = t then .ok _ else .error _) (if u' = t then .ok _ else .error _)
    by_cases hu : u = t
    · rw [if_pos hu, if_pos (hiff.2 hu)]
      exact .ok ⟨hu ▸ htail, rfl⟩
    · rw [if_neg hu, if_neg (mt hiff.1 hu)]
      exact .error (congrArg (SyntaxError.unexpectedToken t) hfolded)

theorem Alike.expect (h : c.Alike d) {t : Token} (ht : ∀ n, t ≠ .name n) :
    Outcome.Alike (fun x y => x.val.Alike y.val) (c.expect t) (d.expect t) := by
  obtain ⟨named, h⟩ := h
  exact (h.expect ht).mono fun _ _ h => ⟨_, h⟩

end Cursor

namespace Node

open Cursor

/-- Trees that differ in the case of names alone. -/
def Alike (n n' : Node) : Prop := n'.relabel .lower = n.relabel .lower

def AlikeAll (ns ns' : List Node) : Prop := ns'.map (relabel .lower) = ns.map (relabel .lower)

section

variable {n n' m m' : Node} {ns ns' : List Node}

theorem Alike.span (h : n.Alike n') : n'.span = n.span := by
  have hspan := congrArg Node.span h
  rwa [span_relabel, span_relabel] at hspan

theorem Alike.binary (h : n.Alike n') (h' : m.Alike m') (op : BinaryOp) :
    (Node.binary { span := n.span.join m.span } op n m).Alike
      (.binary { span := n'.span.join m'.span } op n' m') := by
  rw [Alike, relabel, relabel, h, h', h.span, h'.span]

theorem Alike.negate (h : n.Alike n') (minus : Span) : (negate minus n).Alike (negate minus n') := by
  have hnegate : ∀ n : Node, (Node.negate minus n).relabel .lower =
      Node.negate minus (n.relabel .lower) := by
    intro n
    cases n <;> rfl
  rw [Alike, hnegate, hnegate, h]

theorem AlikeAll.mapAccess (h : AlikeAll ns ns') {map map' : Name} (hmap : map'.lower = map.lower)
    (tag : Tag) : (Node.mapAccess tag map ns).Alike (.mapAccess tag map' ns') := by
  rw [Alike, relabel_mapAccess, relabel_mapAccess, h]
  exact congrArg (Node.mapAccess _ · _) hmap

theorem Alike.assign (h : n.Alike n') (h' : m.Alike m') (op : Option ArithOp) (last : Span) :
    Alike (match op with
      | none => .declaration { span := n.span.join last } n m
      | some op => .assignment { span := n.span.join last } op n m)
    (match op with
      | none => .declaration { span := n'.span.join last } n' m'
      | some op => .assignment { span := n'.span.join last } op n' m') := by
  rw [h.span]
  cases op with
  | none => exact congrArg₂ (Node.declaration _) h h'
  | some op => exact congrArg₂ (Node.assignment _ op) h h'

theorem AlikeAll.unroll (h : AlikeAll ns ns') (tag : Tag) (count : Nat) :
    (Node.unroll tag count ns).Alike (.unroll tag count ns') := by
  rw [Alike, relabel_unroll, relabel_unroll, h]

theorem Alike.cond (h : n.Alike n') {no no' : List Node} (hyes : AlikeAll ns ns')
    (hno : AlikeAll no no') (tag : Tag) : (Node.cond tag n ns no).Alike (.cond tag n' ns' no') := by
  rw [Alike, relabel_cond, relabel_cond, h, hyes, hno]

theorem AlikeAll.call (h : AlikeAll ns ns') {f f' : Name} (hf : f'.lower = f.lower) (tag : Tag) :
    (Node.call tag f ns).Alike (.call tag f' ns') := by
  rw [Alike, relabel_call, relabel_call, h]
  exact congrArg (Node.call _ · _) hf

end

theorem opening_alike {t t' : TraceScript.Located Token} (h : AlikeTokens t t') :
    (opening t' = opening t ∧ ∀ n, opening t ≠ .name n) ∨
    ∃ n n', opening t = .name n ∧ opening t' = .name n' ∧ n'.lower = n.lower := by
  obtain ⟨value, span⟩ := t
  obtain ⟨value', span'⟩ := t'
  obtain ⟨rfl : span' = span, hfolded : value'.relabel .lower = value.relabel .lower⟩ := h
  obtain rfl | ⟨n, n', rfl, rfl, hlower⟩ := Token.eq_or_names hfolded
  · cases value' with
    | name n => exact .inr ⟨n, n, rfl, rfl, rfl⟩
    | _ => exact .inl ⟨rfl, nofun⟩
  · exact .inr ⟨n, n', rfl, rfl, hlower⟩

theorem alike_expression_all :
    (∀ level c, ∀ d, c.Alike d →
      Outcome.Alike (Pairs Alike) (parseBinary level c) (parseBinary level d)) ∧
    (∀ level lhs c, ∀ lhs' d, lhs.Alike lhs' → c.Alike d →
      Outcome.Alike (Pairs Alike) (parseOperators level lhs c) (parseOperators level lhs' d)) ∧
    (∀ c, ∀ d, c.Alike d → Outcome.Alike (Pairs Alike) (parseUnary c) (parseUnary d)) ∧
    (∀ c, ∀ d, c.Alike d → Outcome.Alike (Pairs Alike) (parsePrimary c) (parsePrimary d)) ∧
    (∀ name start c, ∀ name' d, name'.lower = name.lower → c.Alike d →
      Outcome.Alike (Pairs Alike) (parsePlace name start c) (parsePlace name' start d)) ∧
    (∀ c, ∀ d, c.Alike d → Outcome.Alike (Pairs AlikeAll) (parseList c) (parseList d)) ∧
    (∀ name start c, ∀ name' d, name'.lower = name.lower → c.Alike d →
      Outcome.Alike (Pairs Alike) (parseCall name start c) (parseCall name' start d)) ∧
    (∀ c, ∀ d, c.Alike d → Outcome.Alike (Pairs AlikeAll) (parseArgs c) (parseArgs d)) := by
  apply parseBinary.mutual_induct
  case case1 =>
    intro level c hl ih d h
    rw [parseBinary.eq_def level c, parseBinary.eq_def level d, if_pos hl, if_pos hl]
    exact ih d h
  case case2 =>
    intro level c hl ih ihOps d h
    rw [parseBinary.eq_def level c, parseBinary.eq_def level d, if_neg hl, if_neg hl]
    refine (ih d h).bind ?_
    rintro ⟨lhs, c₁⟩ ⟨lhs', d₁⟩ ⟨hlhs, h₁⟩
    refine (ihOps lhs c₁ lhs' d₁ hlhs h₁).bind ?_
    rintro ⟨node, c₂⟩ ⟨node', d₂⟩ ⟨hnode, h₂⟩
    exact .ok ⟨hnode, h₂⟩
  case case3 =>
    intro level lhs c hop lhs' d hlhs h
    rw [parseOperators.eq_def level lhs c, parseOperators.eq_def level lhs' d, h.binaryOp?, hop]
    exact .ok ⟨hlhs, h⟩
  case case4 =>
    intro lhs c op hop ih ihOps lhs' d hlhs h
    rw [parseOperators.eq_def op.level lhs c, parseOperators.eq_def op.level lhs' d, h.binaryOp?, hop]
    dsimp only
    rw [if_pos rfl, if_pos rfl]
    -- The right operand is read first, and the operators after it get the joined tree.
    refine h.next.bind ?_
    rintro ⟨token, c₁⟩ ⟨token', d₁⟩ ⟨-, h₁⟩
    refine (ih c₁ d₁ h₁).bind ?_
    rintro ⟨rhs, c₂⟩ ⟨rhs', d₂⟩ ⟨hrhs, h₂⟩
    refine (ihOps c₁ rhs c₂ _ d₂ ?_ h₂).bind ?_
    · exact hlhs.binary hrhs op
    rintro ⟨node, c₃⟩ ⟨node', d₃⟩ ⟨hnode, h₃⟩
    exact .ok ⟨hnode, h₃⟩
  case case5 =>
    intro level lhs c op hop hne lhs' d hlhs h
    rw [parseOperators.eq_def level lhs c, parseOperators.eq_def level lhs' d, h.binaryOp?, hop]
    dsimp only
    rw [if_neg hne, if_neg hne]
    exact .ok ⟨hlhs, h⟩
  case case6 =>
    intro c hsees ih d h
    rw [parseUnary.eq_def c, parseUnary.eq_def d, h.sees (by rintro _ ⟨⟩), if_pos hsees, if_pos hsees]
    refine h.next.bind ?_
    rintro ⟨minus, c₁⟩ ⟨minus', d₁⟩ ⟨hminus, h₁⟩
    refine (ih c₁ d₁ h₁).bind ?_
    rintro ⟨operand, c₂⟩ ⟨operand', d₂⟩ ⟨hoperand, h₂⟩
    refine .ok ⟨?_, h₂⟩
    rw [hminus.span]
    exact hoperand.negate minus.span
  case case7 =>
    intro c hsees ih d h
    rw [parseUnary.eq_def c, parseUnary.eq_def d, h.sees (by rintro _ ⟨⟩), if_neg hsees, if_neg hsees]
    exact ih d h
  case case8 =>
    intro c ihExpr ihCall ihPlace d h
    rw [parsePrimary.eq_def c, parsePrimary.eq_def d]
    refine h.next.bind ?_
    rintro ⟨token, c₁⟩ ⟨token', d₁⟩ ⟨htoken, h₁⟩
    dsimp only
    obtain ⟨hopening, hname⟩ | ⟨n, n', hn, hn', hlower⟩ := opening_alike htoken
    · rw [hopening]
      cases hopen : opening token with
      | literal node => exact .ok ⟨rfl, h₁⟩
      | paren =>
        refine (ihExpr c₁ d₁ h₁).bind ?_
        rintro ⟨node, c₂⟩ ⟨node', d₂⟩ ⟨hnode, h₂⟩
        exact (h₂.expect (by rintro _ ⟨⟩)).bind fun _ _ h₃ => .ok ⟨hnode, h₃⟩
      | name n => exact absurd hopen (hname n)
      | other =>
        rw [htoken.span]
        exact .error rfl
    · rw [hn, hn', htoken.span]
      dsimp only
      rw [h₁.sees (by rintro _ ⟨⟩)]
      split
      · refine (ihCall token c₁ n n' d₁ hlower h₁).bind ?_
        rintro ⟨node, c₂⟩ ⟨node', d₂⟩ ⟨hnode, h₂⟩
        exact .ok ⟨hnode, h₂⟩
      · refine (ihPlace token c₁ n n' d₁ hlower h₁).bind ?_
        rintro ⟨node, c₂⟩ ⟨node', d₂⟩ ⟨hnode, h₂⟩
        exact .ok ⟨hnode, h₂⟩
  case case9 =>
    intro name start c hsees ih name' d hname h
    rw [parsePlace.eq_def name start c, parsePlace.eq_def name' start d, h.sees (by rintro _ ⟨⟩),
      if_pos hsees, if_pos hsees]
    refine h.next.bind ?_
    rintro ⟨token, c₁⟩ ⟨token', d₁⟩ ⟨-, h₁⟩
    refine (ih c₁ d₁ h₁).bind ?_
    rintro ⟨keys, c₂⟩ ⟨keys', d₂⟩ ⟨hkeys, h₂⟩
    refine (h₂.expect (by rintro _ ⟨⟩)).bind fun c₃ d₃ h₃ => .ok ⟨?_, h₃⟩
    rw [h₃.last]
    exact hkeys.mapAccess hname _
  case case10 =>
    intro name start c hsees name' d hname h
    rw [parsePlace.eq_def name start c, parsePlace.eq_def name' start d, h.sees (by rintro _ ⟨⟩),
      if_neg hsees, if_neg hsees]
    exact .ok ⟨congrArg (Node.var _) hname, h⟩
  case case11 =>
    intro c ihFirst ihRest d h
    rw [parseList.eq_def c, parseList.eq_def d]
    refine (ihFirst d h).bind ?_
    rintro ⟨first, c₁⟩ ⟨first', d₁⟩ ⟨hfirst, h₁⟩
    dsimp only
    rw [h₁.sees (by rintro _ ⟨⟩)]
    split
    · refine h₁.next.bind ?_
      rintro ⟨token, c₂⟩ ⟨token', d₂⟩ ⟨-, h₂⟩
      refine (ihRest c₁ c₂ d₂ h₂).bind ?_
      rintro ⟨others, c₃⟩ ⟨others', d₃⟩ ⟨hothers, h₃⟩
      exact .ok ⟨congrArg₂ List.cons hfirst hothers, h₃⟩
    · exact .ok ⟨congrArg ([·]) hfirst, h₁⟩
  case case12 =>
    intro name start c ih name' d hname h
    rw [parseCall.eq_def name start c, parseCall.eq_def name' start d]
    refine (h.expect (by rintro _ ⟨⟩)).bind fun c₁ d₁ h₁ => (ih c₁ d₁ h₁).bind ?_
    rintro ⟨args, c₂⟩ ⟨args', d₂⟩ ⟨hargs, h₂⟩
    refine (h₂.expect (by rintro _ ⟨⟩)).bind fun c₃ d₃ h₃ => .ok ⟨?_, h₃⟩
    rw [h₃.last]
    exact hargs.call hname _
  case case13 =>
    intro c hsome ih d h
    rw [parseArgs.eq_def c, parseArgs.eq_def d, h.startsExpr, if_pos hsome, if_pos hsome]
    refine (ih d h).bind ?_
    rintro ⟨args, c₁⟩ ⟨args', d₁⟩ ⟨hargs, h₁⟩
    exact .ok ⟨hargs, h₁⟩
  case case14 =>
    intro c hnone d h
    rw [parseArgs.eq_def c, parseArgs.eq_def d, h.startsExpr, if_neg hnone, if_neg hnone]
    exact .ok ⟨rfl, h⟩

variable {c d : Cursor}

theorem alike_parseExpr (h : c.Alike d) :
    Outcome.Alike (Pairs Alike) (parseExpr c) (parseExpr d) :=
  alike_expression_all.1 0 c d h

section

variable {α β : Type} {S : α → β → Prop} {t t' : TraceScript.Located Token}

theorem alike_operator {k : Option ArithOp → Cursor.Outcome α}
    {k' : Option ArithOp → Cursor.Outcome β}
    (h : AlikeTokens t t') (hk : ∀ op, Outcome.Alike S (k op) (k' op)) :
    Outcome.Alike S (match t.value with
      | .assign => pure none >>= k
      | .update op => pure (some op) >>= k
      | found => throw ⟨.unexpectedToken .assign found, t.span⟩ >>= k)
    (match t'.value with
      | .assign => pure none >>= k'
      | .update op => pure (some op) >>= k'
      | found => throw ⟨.unexpectedToken .assign found, t'.span⟩ >>= k') := by
  obtain ⟨token, span⟩ := t
  obtain ⟨token', span'⟩ := t'
  obtain ⟨rfl : span' = span, hfolded : token'.relabel .lower = token.relabel .lower⟩ := h
  obtain rfl | ⟨n, n', rfl, rfl, -⟩ := Token.eq_or_names hfolded
  · cases token' with
    | assign => exact hk none
    | update op => exact hk (some op)
    | _ => exact .error rfl
  · exact .error (congrArg (SyntaxError.unexpectedToken .assign) hfolded)

theorem alike_count {k : Nat → Cursor.Outcome α} {k' : Nat → Cursor.Outcome β}
    (h : AlikeTokens t t')
    (hk : ∀ count, Outcome.Alike S (k count) (k' count)) :
    Outcome.Alike S (match t.value with
      | .int value =>
        if 0 ≤ value.toInt ∧ value.toInt ≤ maxCount then pure value.toInt.toNat >>= k
        else throw ⟨.badRepetitionCount, t.span⟩ >>= k
      | _ => throw ⟨.badRepetitionCount, t.span⟩ >>= k)
    (match t'.value with
      | .int value =>
        if 0 ≤ value.toInt ∧ value.toInt ≤ maxCount then pure value.toInt.toNat >>= k'
        else throw ⟨.badRepetitionCount, t'.span⟩ >>= k'
      | _ => throw ⟨.badRepetitionCount, t'.span⟩ >>= k') := by
  obtain ⟨token, span⟩ := t
  obtain ⟨token', span'⟩ := t'
  obtain ⟨rfl : span' = span, hfolded : token'.relabel .lower = token.relabel .lower⟩ := h
  obtain rfl | ⟨n, n', rfl, rfl, -⟩ := Token.eq_or_names hfolded
  · cases token' with
    | int value =>
      dsimp only
      split
      · exact hk _
      · exact .error rfl
    | _ => exact .error rfl
  · exact .error rfl

end

theorem alike_parseSimple {name name' : Name} (hname : name'.lower = name.lower) (start : Span)
    (h : c.Alike d) :
    Outcome.Alike (Pairs Alike) (parseSimple name start c) (parseSimple name' start d) := by
  unfold parseSimple
  rw [h.sees (by rintro _ ⟨⟩)]
  split
  · refine (alike_expression_all.2.2.2.2.2.2.1 name start c name' d hname h).bind ?_
    rintro ⟨node, c₁⟩ ⟨node', d₁⟩ ⟨hnode, h₁⟩
    exact (h₁.expect (by rintro _ ⟨⟩)).bind fun _ _ h₂ => .ok ⟨hnode, h₂⟩
  · refine (alike_expression_all.2.2.2.2.1 name start c name' d hname h).bind ?_
    rintro ⟨target, c₁⟩ ⟨target', d₁⟩ ⟨htarget, h₁⟩
    refine h₁.next.bind ?_
    rintro ⟨token, c₂⟩ ⟨token', d₂⟩ ⟨htoken, h₂⟩
    refine alike_operator htoken fun op => (alike_parseExpr h₂).bind ?_
    rintro ⟨value, c₃⟩ ⟨value', d₃⟩ ⟨hvalue, h₃⟩
    refine (h₃.expect (by rintro _ ⟨⟩)).bind fun c₄ d₄ h₄ => .ok ⟨?_, h₄⟩
    rw [h₄.last]
    exact htarget.assign hvalue op _

theorem alike_statement_all :
    (∀ c, ∀ d, c.Alike d → Outcome.Alike (Pairs AlikeAll) (parseStatements c) (parseStatements d)) ∧
    (∀ token c, ∀ token' d, AlikeTokens token token' → c.Alike d →
      Outcome.Alike (Pairs Alike) (parseStatement token c) (parseStatement token' d)) ∧
    (∀ start c, ∀ d, c.Alike d →
      Outcome.Alike (Pairs Alike) (parseUnroll start c) (parseUnroll start d)) ∧
    (∀ c, ∀ d, c.Alike d → Outcome.Alike (Pairs AlikeAll) (parseBlock c) (parseBlock d)) ∧
    (∀ start c, ∀ d, c.Alike d →
      Outcome.Alike (Pairs Alike) (parseCond start c) (parseCond start d)) ∧
    (∀ c, ∀ d, c.Alike d → Outcome.Alike (Pairs AlikeAll) (parseElse c) (parseElse d)) := by
  apply parseStatements.mutual_induct
  case case1 =>
    intro c ihFirst ihRest d h
    rw [parseStatements.eq_def c, parseStatements.eq_def d]
    refine h.next.bind ?_
    rintro ⟨token, c₁⟩ ⟨token', d₁⟩ ⟨htoken, h₁⟩
    have hclose : token'.value = .closeBrace ↔ token.value = .closeBrace :=
      Token.eq_iff_of_relabel htoken.folded (by rintro _ ⟨⟩)
    dsimp only
    simp only [hclose]
    split
    · exact .ok ⟨rfl, h₁⟩
    · refine (ihFirst token c₁ token' d₁ htoken h₁).bind ?_
      rintro ⟨first, c₂⟩ ⟨first', d₂⟩ ⟨hfirst, h₂⟩
      refine (ihRest c₁ c₂ d₂ h₂).bind ?_
      rintro ⟨others, c₃⟩ ⟨others', d₃⟩ ⟨hothers, h₃⟩
      exact .ok ⟨congrArg₂ List.cons hfirst hothers, h₃⟩
  case case2 =>
    intro token c hv ih token' d htoken h
    have hv' := (Token.eq_iff_of_relabel htoken.folded (by rintro _ ⟨⟩)).2 hv
    rw [parseStatement.eq_def token c, parseStatement.eq_def token' d, hv, hv', htoken.span]
    exact ih d h
  case case3 =>
    intro token c hv ih token' d htoken h
    have hv' := (Token.eq_iff_of_relabel htoken.folded (by rintro _ ⟨⟩)).2 hv
    rw [parseStatement.eq_def token c, parseStatement.eq_def token' d, hv, hv', htoken.span]
    exact ih d h
  case case4 =>
    intro token c name hv token' d htoken h
    obtain ⟨name', hv', hname⟩ := Token.exists_name (hv ▸ htoken.folded)
    rw [parseStatement.eq_def token c, parseStatement.eq_def token' d, hv, hv', htoken.span]
    exact alike_parseSimple hname token.span h
  case case5 =>
    rintro ⟨value, span⟩ c hc hu hn ⟨value', span'⟩ d ⟨rfl : span' = span, hfolded⟩ h
    rw [parseStatement.eq_def _ c, parseStatement.eq_def _ d]
    obtain rfl | ⟨n, -, rfl, -⟩ := Token.eq_or_names hfolded
    · cases value' with
      | name n => exact absurd rfl (hn n)
      | keyword k =>
        cases k with
        | cond => exact absurd rfl hc
        | unroll => exact absurd rfl hu
        | _ => exact .error rfl
      | _ => exact .error rfl
    · exact absurd rfl (hn n)
  case case6 =>
    intro start c ih d h
    rw [parseUnroll.eq_def start c, parseUnroll.eq_def start d]
    refine (h.expect (by rintro _ ⟨⟩)).bind fun c₁ d₁ h₁ => h₁.next.bind ?_
    rintro ⟨token, c₂⟩ ⟨token', d₂⟩ ⟨htoken, h₂⟩
    refine alike_count htoken fun count => (h₂.expect (by rintro _ ⟨⟩)).bind fun c₃ d₃ h₃ => ?_
    refine (ih c₁ c₂ c₃ d₃ h₃).bind ?_
    rintro ⟨body, c₄⟩ ⟨body', d₄⟩ ⟨hbody, h₄⟩
    refine .ok ⟨?_, h₄⟩
    rw [h₄.last]
    exact hbody.unroll _ _
  case case7 =>
    intro c ih d h
    rw [parseBlock.eq_def c, parseBlock.eq_def d]
    refine (h.expect (by rintro _ ⟨⟩)).bind fun c₁ d₁ h₁ => (ih c₁ d₁ h₁).bind ?_
    rintro ⟨body, c₂⟩ ⟨body', d₂⟩ ⟨hbody, h₂⟩
    exact .ok ⟨hbody, h₂⟩
  case case8 =>
    intro start c ihYes ihNo d h
    rw [parseCond.eq_def start c, parseCond.eq_def start d]
    refine (h.expect (by rintro _ ⟨⟩)).bind fun c₁ d₁ h₁ => (alike_parseExpr h₁).bind ?_
    rintro ⟨condition, c₂⟩ ⟨condition', d₂⟩ ⟨hcondition, h₂⟩
    refine (h₂.expect (by rintro _ ⟨⟩)).bind fun c₃ d₃ h₃ => (ihYes c₁ c₂ c₃ d₃ h₃).bind ?_
    rintro ⟨yes, c₄⟩ ⟨yes', d₄⟩ ⟨hyes, h₄⟩
    refine (ihNo c₁ c₂ c₃ c₄ d₄ h₄).bind ?_
    rintro ⟨no, c₅⟩ ⟨no', d₅⟩ ⟨hno, h₅⟩
    refine .ok ⟨?_, h₅⟩
    rw [h₅.last]
    exact hcondition.cond hyes hno _
  case case9 =>
    intro c hsees ihCond ihBlock d h
    rw [parseElse.eq_def c, parseElse.eq_def d, h.sees (by rintro _ ⟨⟩), if_pos hsees, if_pos hsees]
    refine h.next.bind ?_
    rintro ⟨token, c₁⟩ ⟨token', d₁⟩ ⟨-, h₁⟩
    dsimp only
    rw [h₁.sees (by rintro _ ⟨⟩)]
    split
    · refine h₁.next.bind ?_
      rintro ⟨⟨token, span⟩, c₂⟩ ⟨⟨token', span'⟩, d₂⟩ ⟨⟨rfl, -⟩, h₂⟩
      refine (ihCond c₁ ⟨token, span'⟩ c₂ d₂ h₂).bind ?_
      rintro ⟨node, c₃⟩ ⟨node', d₃⟩ ⟨hnode, h₃⟩
      exact .ok ⟨congrArg ([·]) hnode, h₃⟩
    · refine (ihBlock c₁ d₁ h₁).bind ?_
      rintro ⟨body, c₂⟩ ⟨body', d₂⟩ ⟨hbody, h₂⟩
      exact .ok ⟨hbody, h₂⟩
  case case10 =>
    intro c hsees d h
    rw [parseElse.eq_def c, parseElse.eq_def d, h.sees (by rintro _ ⟨⟩), if_neg hsees, if_neg hsees]
    exact .ok ⟨rfl, h⟩

theorem alike_parseBlock (h : c.Alike d) :
    Outcome.Alike (Pairs AlikeAll) (parseBlock c) (parseBlock d) :=
  alike_statement_all.2.2.2.1 c d h

end Node

namespace Probe

open Cursor

/-- Probes of the same name, whose trees differ in the case of names alone. -/
def Alike (p p' : Probe) : Prop := p'.relabel .lower = p.relabel .lower

def AlikeAll (ps ps' : List Probe) : Prop := ps'.map (relabel .lower) = ps.map (relabel .lower)

theorem alike_parse {c d : Cursor} (h : c.Alike d) :
    Outcome.Alike (Pairs Alike) (parse c) (parse d) := by
  obtain ⟨named, h⟩ := h
  refine (h.expect (by rintro _ ⟨⟩)).bind fun c₁ d₁ h₁ => h₁.next.bind ?_
  -- The name of the probe follows its keyword, so it is the same token in both readings.
  rintro ⟨token, c₂⟩ ⟨token', d₂⟩ ⟨⟨-, hsame⟩, h₂⟩
  obtain rfl : token' = token := hsame rfl
  dsimp only
  split
  case h_3 => exact .error rfl
  all_goals
    refine (Node.alike_parseBlock h₂).bind ?_
    rintro ⟨body, c₃⟩ ⟨body', d₃⟩ ⟨hbody, h₃⟩
    exact .ok ⟨congrArg (Probe.mk _) hbody, h₃⟩

theorem alike_parseAll (c : Cursor) : ∀ d, c.Alike d →
    Outcome.Alike AlikeAll (parseAll c) (parseAll d) := by
  induction c using parseAll.induct with
  | case1 c hempty =>
    intro d h
    rw [parseAll.eq_def c, parseAll.eq_def d, h.isEmpty, if_pos hempty, if_pos hempty]
    exact .ok rfl
  | case2 c hne ih =>
    intro d h
    rw [parseAll.eq_def c, parseAll.eq_def d, h.isEmpty, if_neg hne, if_neg hne]
    refine (alike_parse h).bind ?_
    rintro ⟨p, c₁⟩ ⟨p', d₁⟩ ⟨hp, h₁⟩
    exact (ih c₁ d₁ h₁).bind fun _ _ hothers => .ok (congrArg₂ List.cons hp hothers)

/-- Tokens that differ in case write probes that differ in case, or fail alike. -/
theorem alike_ofTokens {ts ts' : List (Located Token)} (h : Token.Recased false ts ts') :
    Outcome.Alike AlikeAll (ofTokens ts) (ofTokens ts') :=
  alike_parseAll ⟨ts, .first⟩ ⟨ts', .first⟩ ⟨false, h, rfl⟩

end Probe

end TraceScript
