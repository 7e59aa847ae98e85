import Mathlib.Data.List.Basic
import TraceScript.Proofs.Grammar

namespace TraceScript

open Run

/-- A rule reads a value, up to the places in it, and leaves some tokens. -/
def Reads {α β : Type} {P : Cursor → Prop} (f : α → β) (m : Cursor.Outcome (α × { d // P d })) (b : β)
    (rest : List Token) : Prop :=
  ∃ a d, m = .ok (a, d) ∧ f a = b ∧ d.val.tokens = rest

namespace Grammar

mutual

theorem Expr.head : ∀ {level : Nat} {ts : List Token} {n : Node}, Expr level ts n →
    ∃ t us, ts = t :: us ∧ t.startsExpr
  | _, _, _, .unary h => h.head
  | _, _, _, .operand _ h => h.head
  | _, _, _, .operation h _ => by
    obtain ⟨t, us, rfl, ht⟩ := h.head
    exact ⟨t, _, rfl, ht⟩

theorem Unary.head : ∀ {ts : List Token} {n : Node}, Unary ts n → ∃ t us, ts = t :: us ∧ t.startsExpr
  | _, _, .minus _ => ⟨_, _, rfl, rfl⟩
  | _, _, .primary h => by
    obtain ⟨t, us, hts, ht, -⟩ := h.head
    exact ⟨t, us, hts, ht⟩

theorem Primary.head : ∀ {ts : List Token} {n : Node}, Primary ts n →
    ∃ t us, ts = t :: us ∧ t.startsExpr ∧ t ≠ .arith .sub
  | _, _, .int _ => ⟨_, _, rfl, rfl, nofun⟩
  | _, _, .text _ => ⟨_, _, rfl, rfl, nofun⟩
  | _, _, .place h => by
    cases h with
    | var name => exact ⟨_, _, rfl, rfl, nofun⟩
    | entry map _ => exact ⟨_, _, rfl, rfl, nofun⟩
  | _, _, .call h => by
    cases h with
    | empty function => exact ⟨_, _, rfl, rfl, nofun⟩
    | args function _ => exact ⟨_, _, rfl, rfl, nofun⟩
  | _, _, .paren _ => ⟨_, _, rfl, rfl, nofun⟩

end

theorem Exprs.head {ts : List Token} {ns : List Node} (h : Exprs ts ns) :
    ∃ t us, ts = t :: us ∧ t.startsExpr := by
  cases h with
  | one h => exact h.head
  | more h _ =>
    obtain ⟨t, us, rfl, ht⟩ := h.head
    exact ⟨t, _, rfl, ht⟩

/-- The first of some tokens does not go on with an expression of a level. -/
def Stops (level : Nat) (ts : List Token) : Prop :=
  ∀ t ∈ ts.head?, t ≠ .openParen ∧ t ≠ .openBracket ∧ ∀ op : BinaryOp, t = op.token → op.level < level

theorem Stops.mono {level level' : Nat} {ts : List Token} (h : Stops level ts) (hl : level ≤ level') :
    Stops level' ts := fun t ht =>
  ⟨(h t ht).1, (h t ht).2.1, fun op hop => Nat.lt_of_lt_of_le ((h t ht).2.2 op hop) hl⟩

theorem stops_cons {t : Token} (ts : List Token) (level : Nat) (hparen : t ≠ .openParen)
    (hbracket : t ≠ .openBracket) (hop : t.binaryOp? = none) : Stops level (t :: ts) := by
  intro t' ht
  obtain rfl : t = t' := Option.some.inj ht
  refine ⟨hparen, hbracket, fun op heq => ?_⟩
  rw [Token.binaryOp?_eq_some.2 heq] at hop
  cases hop

theorem stops_op (op : BinaryOp) (ts : List Token) : Stops (op.level + 1) (op.token :: ts) := by
  intro t ht
  obtain rfl : op.token = t := Option.some.inj ht
  refine ⟨by cases op <;> nofun, by cases op <;> nofun, fun op' heq => ?_⟩
  have hop := Token.binaryOp?_eq_some.2 heq
  rw [Token.binaryOp?_eq_some.2 rfl] at hop
  rw [Option.some.inj hop]
  exact Nat.lt_succ_self _

end Grammar

namespace Node

open Cursor Grammar

variable {c : Cursor} {rest ts us : List Token} {n : Node} {ns : List Node}

theorem not_sees {t : Token} (h : ∀ u ∈ c.tokens.head?, u ≠ t) : ¬c.sees t := by
  rw [sees_iff]
  intro hhead
  exact h t hhead rfl

theorem reads_operators {level : Nat} (l : Node) (h : Stops level c.tokens) :
    Reads erase (parseOperators level l c) l.erase c.tokens := by
  unfold parseOperators
  rw [peek_eq]
  cases hhead : c.tokens.head? with
  | none => exact ⟨l, _, rfl, rfl, rfl⟩
  | some t =>
    rw [Option.bind_some]
    cases hop : t.binaryOp? with
    | none => exact ⟨l, _, rfl, rfl, rfl⟩
    | some op =>
      have hlt := (h t hhead).2.2 op (Token.binaryOp?_eq_some.1 hop)
      dsimp only
      rw [if_neg (Nat.ne_of_lt hlt)]
      exact ⟨l, _, rfl, rfl, rfl⟩

def ReadsExpr (level : Nat) (ts : List Token) (n : Node) : Prop :=
  ∀ c rest, c.tokens = ts ++ rest → Stops level rest → Reads erase (parseBinary level c) n rest

/-- Reading an expression of a level comes to the point at which the tree is the left operand of
whatever operators of the level follow. -/
def LoopsExpr (level : Nat) (ts : List Token) (n : Node) : Prop :=
  ∀ c rest, c.tokens = ts ++ rest → Stops (level + 1) rest → ∃ l c', l.erase = n ∧ c'.tokens = rest ∧
    ∀ x us, Reads erase (parseOperators level l c') x us → Reads erase (parseBinary level c) x us

def ReadsUnary (ts : List Token) (n : Node) : Prop :=
  ∀ c rest, c.tokens = ts ++ rest → Stops BinaryOp.levels rest → Reads erase (parseUnary c) n rest

def ReadsPrimary (ts : List Token) (n : Node) : Prop :=
  ∀ c rest, c.tokens = ts ++ rest → Stops BinaryOp.levels rest → Reads erase (parsePrimary c) n rest

def ReadsPlace (ts : List Token) (n : Node) : Prop :=
  ∃ name us, ts = .name name :: us ∧ ∀ start c rest, c.tokens = us ++ rest →
    Stops BinaryOp.levels rest → ¬c.sees .openParen ∧ Reads erase (parsePlace name start c) n rest

def ReadsCall (ts : List Token) (n : Node) : Prop :=
  ∃ name us, ts = .name name :: us ∧ ∀ start c rest, c.tokens = us ++ rest →
    c.sees .openParen ∧ Reads erase (parseCall name start c) n rest

def ReadsExprs (ts : List Token) (ns : List Node) : Prop :=
  ∀ c rest, c.tokens = ts ++ rest → Stops 0 rest → rest.head? ≠ some .comma →
    Reads (List.map erase) (parseList c) ns rest

theorem level_lt (op : BinaryOp) : op.level < BinaryOp.levels := by
  cases op with
  | compare op => exact Nat.zero_lt_succ _
  | arith op => cases op <;> decide

theorem LoopsExpr.reads {level : Nat} (h : LoopsExpr level ts n) : ReadsExpr level ts n := by
  intro c rest hc hstops
  obtain ⟨l, c', hl, hc', hread⟩ := h c rest hc (hstops.mono (Nat.le_succ level))
  have hend := reads_operators l (hc'.symm ▸ hstops)
  rw [hl, hc'] at hend
  exact hread _ _ hend

theorem loopsExpr_operand {level : Nat} (hl : level < BinaryOp.levels)
    (h : ReadsExpr (level + 1) ts n) : LoopsExpr level ts n := by
  intro c rest hc hstops
  obtain ⟨l, c₁, hrun, hl', hc₁⟩ := h c rest hc hstops
  refine ⟨l, c₁.val, hl', hc₁, ?_⟩
  rintro x us ⟨n', c₂, hops, hn', hc₂⟩
  rw [parseBinary, if_neg (Nat.not_le.2 hl), hrun]
  dsimp only [bind, Except.bind]
  rw [hops]
  exact ⟨_, _, rfl, hn', hc₂⟩

theorem loopsExpr_operation {op : BinaryOp} {l r : Node} (hl : LoopsExpr op.level ts l)
    (hr : ReadsExpr (op.level + 1) us r) :
    LoopsExpr op.level (ts ++ op.token :: us) (.binary .bare op l r) := by
  intro c rest hc hstops
  have hop : Token.binaryOp? op.token = some op := Token.binaryOp?_eq_some.2 rfl
  rw [List.append_assoc] at hc
  obtain ⟨l', c₁, hl', hc₁, hread⟩ := hl c _ hc (stops_op op _)
  obtain ⟨t, c₂, hnext, -, hc₂⟩ := exists_next hc₁
  obtain ⟨r', c₃, hrun, hr', hc₃⟩ := hr c₂.val rest hc₂ hstops
  refine ⟨.binary { span := l'.span.join r'.span } op l' r', c₃.val, ?_, hc₃, ?_⟩
  · rw [← hl', ← hr']
    rfl
  · rintro x vs ⟨n, c₄, hops, hn, hc₄⟩
    refine hread x vs ⟨n, ⟨c₄.val, ?_⟩, ?_, hn, hc₄⟩
    · have := c₂.property
      have := c₃.property
      have := c₄.property
      omega
    · rw [parseOperators, peek_eq, hc₁, List.cons_append, List.head?_cons, Option.bind_some, hop]
      dsimp only
      rw [if_pos rfl, hnext]
      dsimp only [bind, Except.bind]
      rw [hrun]
      dsimp only
      rw [hops]
      rfl

theorem readsExpr_unary (h : ReadsUnary ts n) : ReadsExpr BinaryOp.levels ts n := by
  intro c rest hc hstops
  rw [parseBinary, if_pos (Nat.le_refl _)]
  exact h c rest hc hstops

theorem readsUnary_minus (h : ReadsUnary ts n) : ReadsUnary (.arith .sub :: ts) (negative n) := by
  intro c rest hc hstops
  have hsees : c.sees (.arith .sub) := by rw [sees_iff, hc]; rfl
  obtain ⟨t, c₁, hnext, -, hc₁⟩ := exists_next hc
  obtain ⟨n', c₂, hrun, rfl, hc₂⟩ := h c₁.val rest hc₁ hstops
  rw [parseUnary, if_pos hsees, hnext]
  dsimp only [bind, Except.bind]
  rw [hrun]
  exact ⟨_, _, rfl, erase_negate .., hc₂⟩

theorem readsUnary_primary (hp : Primary ts n) (h : ReadsPrimary ts n) : ReadsUnary ts n := by
  intro c rest hc hstops
  obtain ⟨t, us, rfl, -, ht⟩ := hp.head
  have hsees : ¬c.sees (.arith .sub) := not_sees fun u hu => by
    rw [hc] at hu
    obtain rfl : t = u := Option.some.inj hu
    exact ht
  rw [parseUnary, if_neg hsees]
  exact h c rest hc hstops

theorem readsPrimary_int (value : Int64) : ReadsPrimary [.int value] (.int .bare value) := by
  intro c rest hc _
  obtain ⟨t, c₁, hnext, ht, hc₁⟩ := exists_next hc
  have hopen : opening t = .literal (.int { span := t.span } value) := by rw [opening, ht]
  refine ⟨.int { span := t.span } value, c₁, ?_, rfl, hc₁⟩
  rw [parsePrimary, hnext]
  dsimp only [bind, Except.bind]
  rw [hopen]
  rfl

theorem readsPrimary_text (value : String) : ReadsPrimary [.text value] (.text .bare value) := by
  intro c rest hc _
  obtain ⟨t, c₁, hnext, ht, hc₁⟩ := exists_next hc
  have hopen : opening t = .literal (.text { span := t.span } value) := by rw [opening, ht]
  refine ⟨.text { span := t.span } value, c₁, ?_, rfl, hc₁⟩
  rw [parsePrimary, hnext]
  dsimp only [bind, Except.bind]
  rw [hopen]
  rfl

theorem readsPrimary_place (h : ReadsPlace ts n) : ReadsPrimary ts n := by
  intro c rest hc hstops
  obtain ⟨name, us, rfl, h⟩ := h
  obtain ⟨t, c₁, hnext, ht, hc₁⟩ := exists_next hc
  have hopen : opening t = .name name := by rw [opening, ht]
  obtain ⟨hsees, n', c₂, hrun, hn', hc₂⟩ := h t.span c₁.val rest hc₁ hstops
  rw [parsePrimary, hnext]
  dsimp only [bind, Except.bind]
  rw [hopen]
  dsimp only
  rw [if_neg hsees, hrun]
  exact ⟨_, _, rfl, hn', hc₂⟩

theorem readsPrimary_call (h : ReadsCall ts n) : ReadsPrimary ts n := by
  intro c rest hc _
  obtain ⟨name, us, rfl, h⟩ := h
  obtain ⟨t, c₁, hnext, ht, hc₁⟩ := exists_next hc
  have hopen : opening t = .name name := by rw [opening, ht]
  obtain ⟨hsees, n', c₂, hrun, hn', hc₂⟩ := h t.span c₁.val rest hc₁
  rw [parsePrimary, hnext]
  dsimp only [bind, Except.bind]
  rw [hopen]
  dsimp only
  rw [if_pos hsees, hrun]
  exact ⟨_, _, rfl, hn', hc₂⟩

theorem readsPrimary_paren (h : ReadsExpr 0 ts n) :
    ReadsPrimary (.openParen :: ts ++ [.closeParen]) n := by
  intro c rest hc _
  rw [List.append_assoc, List.cons_append] at hc
  obtain ⟨t, c₁, hnext, ht, hc₁⟩ := exists_next hc
  have hopen : opening t = .paren := by rw [opening, ht]
  obtain ⟨n', c₂, hrun, hn', hc₂⟩ :=
    h c₁.val _ hc₁ (stops_cons rest 0 nofun nofun rfl)
  obtain ⟨c₃, hclose, hc₃⟩ := exists_expect hc₂
  rw [parsePrimary, hnext]
  dsimp only [bind, Except.bind]
  rw [hopen]
  dsimp only
  rw [hrun]
  dsimp only
  rw [hclose]
  exact ⟨_, _, rfl, hn', hc₃⟩

theorem readsPlace_var (name : Name) : ReadsPlace [.name name] (.var .bare name) := by
  refine ⟨name, [], rfl, fun start c rest hc hstops => ?_⟩
  rw [List.nil_append] at hc
  refine ⟨not_sees fun t ht => (hstops t (hc ▸ ht)).1, ?_⟩
  rw [parsePlace, if_neg (not_sees fun t ht => (hstops t (hc ▸ ht)).2.1)]
  exact ⟨_, _, rfl, rfl, hc⟩

theorem readsPlace_entry (map : Name) {keys : List Node} (h : ReadsExprs ts keys) :
    ReadsPlace (.name map :: .openBracket :: ts ++ [.closeBracket]) (.mapAccess .bare map keys) := by
  refine ⟨map, .openBracket :: ts ++ [.closeBracket], rfl, fun start c rest hc _ => ?_⟩
  have hsees : c.sees .openBracket := by rw [sees_iff, hc]; rfl
  rw [List.append_assoc, List.cons_append] at hc
  refine ⟨not_sees fun t ht => ?_, ?_⟩
  · rw [hc] at ht
    cases ht
    nofun
  · obtain ⟨t, c₁, hnext, -, hc₁⟩ := exists_next hc
    obtain ⟨keys', c₂, hrun, hkeys, hc₂⟩ :=
      h c₁.val _ hc₁ (stops_cons rest 0 nofun nofun rfl) nofun
    obtain ⟨c₃, hclose, hc₃⟩ := exists_expect hc₂
    rw [parsePlace, if_pos hsees, hnext]
    dsimp only [bind, Except.bind]
    rw [hrun]
    dsimp only
    rw [hclose]
    refine ⟨_, _, rfl, ?_, hc₃⟩
    rw [erase_mapAccess, hkeys]
    rfl

theorem reads_args_none (hc : c.tokens = .closeParen :: rest) :
    Reads (List.map erase) (parseArgs c) [] (.closeParen :: rest) := by
  have hnone : ¬(c.peek.all Token.startsExpr : Bool) := by
    rw [peek_eq, hc]
    nofun
  rw [parseArgs, if_neg hnone]
  exact ⟨_, _, rfl, rfl, hc⟩

theorem reads_args (hexprs : Exprs ts ns) (h : ReadsExprs ts ns)
    (hc : c.tokens = ts ++ .closeParen :: rest) :
    Reads (List.map erase) (parseArgs c) ns (.closeParen :: rest) := by
  obtain ⟨args, c₁, hrun, hargs, hc₁⟩ := h c _ hc (stops_cons rest 0 nofun nofun rfl) nofun
  obtain ⟨t, us, rfl, ht⟩ := hexprs.head
  have hsome : (c.peek.all Token.startsExpr : Bool) := by
    rw [peek_eq, hc]
    exact ht
  rw [parseArgs, if_pos hsome, hrun]
  exact ⟨_, _, rfl, hargs, hc₁⟩

theorem readsCall {function : Name} (ts : List Token) {args : List Node}
    (h : ∀ c rest, c.tokens = ts ++ .closeParen :: rest →
      Reads (List.map erase) (parseArgs c) args (.closeParen :: rest)) :
    ReadsCall (.name function :: .openParen :: ts ++ [.closeParen]) (.call .bare function args) := by
  refine ⟨function, .openParen :: ts ++ [.closeParen], rfl, fun start c rest hc => ?_⟩
  have hsees : c.sees .openParen := by rw [sees_iff, hc]; rfl
  rw [List.append_assoc, List.cons_append] at hc
  obtain ⟨c₁, hopen, hc₁⟩ := exists_expect hc
  obtain ⟨args', c₂, hrun, hargs, hc₂⟩ := h c₁.val rest hc₁
  obtain ⟨c₃, hclose, hc₃⟩ := exists_expect hc₂
  rw [parseCall, hopen]
  dsimp only [bind, Except.bind]
  rw [hrun]
  dsimp only
  rw [hclose]
  refine ⟨hsees, _, _, rfl, ?_, hc₃⟩
  rw [erase_call, hargs]
  rfl

theorem readsExprs_one (h : ReadsExpr 0 ts n) : ReadsExprs ts [n] := by
  intro c rest hc hstops hcomma
  obtain ⟨n', c₁, hrun, rfl, hc₁⟩ := h c rest hc hstops
  have hsees : ¬c₁.val.sees .comma := by rwa [sees_iff, hc₁]
  rw [parseList, hrun]
  dsimp only [bind, Except.bind]
  rw [if_neg hsees]
  exact ⟨_, _, rfl, rfl, hc₁⟩

theorem readsExprs_more (h : ReadsExpr 0 ts n) (hs : ReadsExprs us ns) :
    ReadsExprs (ts ++ .comma :: us) (n :: ns) := by
  intro c rest hc hstops hcomma
  rw [List.append_assoc] at hc
  obtain ⟨n', c₁, hrun, rfl, hc₁⟩ := h c _ hc (stops_cons _ 0 nofun nofun rfl)
  have hsees : c₁.val.sees .comma := by rw [sees_iff, hc₁]; rfl
  obtain ⟨t, c₂, hnext, -, hc₂⟩ := exists_next hc₁
  obtain ⟨ns', c₃, hrest, rfl, hc₃⟩ := hs c₂.val rest hc₂ hstops hcomma
  rw [parseList, hrun]
  dsimp only [bind, Except.bind]
  rw [if_pos hsees, hnext]
  dsimp only
  rw [hrest]
  exact ⟨_, _, rfl, rfl, hc₃⟩

mutual

theorem reads_expr : ∀ {level : Nat} {ts : List Token} {n : Node}, Expr level ts n →
    ReadsExpr level ts n ∧ (level < BinaryOp.levels → LoopsExpr level ts n)
  | _, _, _, .unary h =>
    ⟨readsExpr_unary (reads_unary h), fun hlt => absurd hlt (Nat.lt_irrefl _)⟩
  | _, _, _, .operand hl h =>
    have hloop := loopsExpr_operand hl (reads_expr h).1
    ⟨hloop.reads, fun _ => hloop⟩
  | _, _, _, .operation hl hr =>
    have hloop := loopsExpr_operation ((reads_expr hl).2 (level_lt _)) (reads_expr hr).1
    ⟨hloop.reads, fun _ => hloop⟩

theorem reads_unary : ∀ {ts : List Token} {n : Node}, Unary ts n → ReadsUnary ts n
  | _, _, .minus h => readsUnary_minus (reads_unary h)
  | _, _, .primary h => readsUnary_primary h (reads_primary h)

theorem reads_primary : ∀ {ts : List Token} {n : Node}, Primary ts n → ReadsPrimary ts n
  | _, _, .int value => readsPrimary_int value
  | _, _, .text value => readsPrimary_text value
  | _, _, .place h => readsPrimary_place (reads_place h)
  | _, _, .call h => readsPrimary_call (reads_call h)
  | _, _, .paren h => readsPrimary_paren (reads_expr h).1

theorem reads_place : ∀ {ts : List Token} {n : Node}, Grammar.Place ts n → ReadsPlace ts n
  | _, _, .var name => readsPlace_var name
  | _, _, .entry map h => readsPlace_entry map (reads_exprs h)

theorem reads_call : ∀ {ts : List Token} {n : Node}, Invocation ts n → ReadsCall ts n
  | _, _, .empty _ => readsCall [] fun _ _ hc => reads_args_none hc
  | _, _, .args _ h => readsCall _ fun _ _ hc => reads_args h (reads_exprs h) hc

theorem reads_exprs : ∀ {ts : List Token} {ns : List Node}, Exprs ts ns → ReadsExprs ts ns
  | _, _, .one h => readsExprs_one (reads_expr h).1
  | _, _, .more h hs => readsExprs_more (reads_expr h).1 (reads_exprs hs)

end

/-- Tokens that a condition without an alternative may stand before. -/
def EndsCond (ts : List Token) : Prop := ts.head? ≠ some (.keyword .otherwise)

def ReadsStmt (ts : List Token) (n : Node) : Prop :=
  ∃ t us, ts = t :: us ∧ t ≠ .closeBrace ∧ t ≠ .keyword .otherwise ∧
    ∀ token c rest, token.value = t → c.tokens = us ++ rest → EndsCond rest →
      Reads erase (parseStatement token c) n rest

def ReadsCond (ts : List Token) (n : Node) : Prop :=
  ∃ us, ts = .keyword .cond :: us ∧ ∀ start c rest, c.tokens = us ++ rest → EndsCond rest →
    Reads erase (parseCond start c) n rest

def ReadsElse (ts : List Token) (ns : List Node) : Prop :=
  ∀ c rest, c.tokens = ts ++ rest → EndsCond rest → Reads (List.map erase) (parseElse c) ns rest

def ReadsBlock (ts : List Token) (ns : List Node) : Prop :=
  ∀ c rest, c.tokens = ts ++ rest → Reads (List.map erase) (parseBlock c) ns rest

def ReadsStmts (ts : List Token) (ns : List Node) : Prop :=
  EndsCond (ts ++ [.closeBrace]) ∧
    ∀ c rest, c.tokens = ts ++ .closeBrace :: rest → Reads (List.map erase) (parseStatements c) ns rest

theorem readsStmt_cond (h : ReadsCond ts n) : ReadsStmt ts n := by
  obtain ⟨us, rfl, h⟩ := h
  refine ⟨_, us, rfl, nofun, nofun, fun token c rest ht hc hends => ?_⟩
  rw [parseStatement, ht]
  exact h token.span c rest hc hends

theorem readsStmt_unroll {value : Int64} {body : List Node} (hlow : 0 ≤ value.toInt)
    (hhigh : value.toInt ≤ maxCount) (h : ReadsBlock ts body) :
    ReadsStmt (.keyword .unroll :: .openParen :: .int value :: .closeParen :: ts)
      (.unroll .bare value.toInt.toNat body) := by
  refine ⟨_, _, rfl, nofun, nofun, fun token c rest ht hc _ => ?_⟩
  obtain ⟨c₁, hopen, hc₁⟩ := exists_expect hc
  obtain ⟨count, c₂, hnext, hcount, hc₂⟩ := exists_next hc₁
  obtain ⟨c₃, hclose, hc₃⟩ := exists_expect hc₂
  obtain ⟨body', c₄, hrun, hbody, hc₄⟩ := h c₃.val rest hc₃
  rw [parseStatement, ht]
  dsimp only
  rw [parseUnroll, hopen]
  dsimp only [bind, Except.bind]
  rw [hnext]
  dsimp only
  rw [hcount]
  dsimp only
  rw [if_pos ⟨hlow, hhigh⟩]
  dsimp only [pure, Except.pure]
  rw [hclose]
  dsimp only
  rw [hrun]
  refine ⟨_, _, rfl, ?_, hc₄⟩
  rw [erase_unroll, hbody]
  rfl

theorem readsStmt_assign (op : Option ArithOp) {target value : Node} (ht : ReadsPlace ts target)
    (hv : ReadsExpr 0 us value) :
    ReadsStmt (ts ++ op.elim .assign .update :: us ++ [.semicolon])
      (op.elim (declaration .bare target value) (assignment .bare · target value)) := by
  obtain ⟨name, ws, rfl, ht⟩ := ht
  refine ⟨_, ws ++ op.elim .assign .update :: us ++ [.semicolon], rfl, nofun, nofun, ?_⟩
  intro token c rest htoken hc _
  rw [List.append_assoc, List.append_assoc] at hc
  have hstops : Stops BinaryOp.levels ((op.elim Token.assign .update :: us) ++ ([.semicolon] ++ rest)) := by
    cases op <;> exact stops_cons _ _ nofun nofun rfl
  obtain ⟨hsees, target', c₁, hplace, rfl, hc₁⟩ := ht token.span c _ hc hstops
  obtain ⟨assign, c₂, hnext, hassign, hc₂⟩ := exists_next hc₁
  obtain ⟨value', c₃, hvalue, rfl, hc₃⟩ := hv c₂.val _ hc₂ (stops_cons rest 0 nofun nofun rfl)
  obtain ⟨c₄, hsemi, hc₄⟩ := exists_expect hc₃
  rw [parseStatement, htoken]
  dsimp only
  rw [parseSimple, if_neg hsees, hplace]
  dsimp only [bind, Except.bind]
  rw [hnext]
  dsimp only
  rw [hassign]
  cases op with
  | none =>
    dsimp only [Option.elim_none, pure, Except.pure]
    rw [parseExpr, hvalue]
    dsimp only
    rw [hsemi]
    exact ⟨_, _, rfl, rfl, hc₄⟩
  | some op =>
    dsimp only [Option.elim_some, pure, Except.pure]
    rw [parseExpr, hvalue]
    dsimp only
    rw [hsemi]
    exact ⟨_, _, rfl, rfl, hc₄⟩

theorem readsStmt_call (h : ReadsCall ts n) : ReadsStmt (ts ++ [.semicolon]) n := by
  obtain ⟨name, us, rfl, h⟩ := h
  refine ⟨_, us ++ [.semicolon], rfl, nofun, nofun, fun token c rest ht hc _ => ?_⟩
  rw [List.append_assoc] at hc
  obtain ⟨hsees, n', c₁, hrun, hn', hc₁⟩ := h token.span c _ hc
  obtain ⟨c₂, hsemi, hc₂⟩ := exists_expect hc₁
  rw [parseStatement, ht]
  dsimp only
  rw [parseSimple, if_pos hsees, hrun]
  dsimp only [bind, Except.bind]
  rw [hsemi]
  exact ⟨_, _, rfl, hn', hc₂⟩

theorem readsCond {vs : List Token} {condition : Node} {yes no : List Node}
    (hcond : ReadsExpr 0 ts condition) (hyes : ReadsBlock us yes) (hno : ReadsElse vs no) :
    ReadsCond (.keyword .cond :: .openParen :: ts ++ .closeParen :: us ++ vs)
      (.cond .bare condition yes no) := by
  refine ⟨.openParen :: ts ++ .closeParen :: us ++ vs, rfl, fun start c rest hc hends => ?_⟩
  rw [List.append_assoc, List.append_assoc, List.cons_append] at hc
  obtain ⟨c₁, hopen, hc₁⟩ := exists_expect hc
  obtain ⟨condition', c₂, hrun, rfl, hc₂⟩ := hcond c₁.val _ hc₁ (stops_cons _ 0 nofun nofun rfl)
  obtain ⟨c₃, hclose, hc₃⟩ := exists_expect hc₂
  obtain ⟨yes', c₄, hrunYes, rfl, hc₄⟩ := hyes c₃.val _ hc₃
  obtain ⟨no', c₅, hrunNo, rfl, hc₅⟩ := hno c₄.val rest hc₄ hends
  rw [parseCond, hopen]
  dsimp only [bind, Except.bind]
  rw [parseExpr, hrun]
  dsimp only
  rw [hclose]
  dsimp only
  rw [hrunYes]
  dsimp only
  rw [hrunNo]
  exact ⟨_, _, rfl, erase_cond .., hc₅⟩

theorem readsElse_none : ReadsElse [] [] := by
  intro c rest hc hends
  have hsees : ¬c.sees (.keyword .otherwise) := by rwa [sees_iff, hc]
  rw [parseElse, if_neg hsees]
  exact ⟨_, _, rfl, rfl, hc⟩

theorem readsElse_block (hblock : Block ts ns) (h : ReadsBlock ts ns) :
    ReadsElse (.keyword .otherwise :: ts) ns := by
  intro c rest hc _
  have hsees : c.sees (.keyword .otherwise) := by rw [sees_iff, hc]; rfl
  obtain ⟨t, c₁, hnext, -, hc₁⟩ := exists_next hc
  obtain ⟨ns', c₂, hrun, hns, hc₂⟩ := h c₁.val rest hc₁
  have hbrace : ¬c₁.val.sees (.keyword .cond) := not_sees fun u hu => by
    cases hblock
    rw [hc₁] at hu
    cases hu
    nofun
  rw [parseElse, if_pos hsees, hnext]
  dsimp only [bind, Except.bind]
  rw [if_neg hbrace, hrun]
  exact ⟨_, _, rfl, hns, hc₂⟩

theorem readsElse_cond (h : ReadsCond ts n) : ReadsElse (.keyword .otherwise :: ts) [n] := by
  intro c rest hc hends
  obtain ⟨us, rfl, h⟩ := h
  have hsees : c.sees (.keyword .otherwise) := by rw [sees_iff, hc]; rfl
  obtain ⟨t, c₁, hnext, -, hc₁⟩ := exists_next hc
  have hif : c₁.val.sees (.keyword .cond) := by rw [sees_iff, hc₁]; rfl
  obtain ⟨t', c₂, hnext', -, hc₂⟩ := exists_next hc₁
  obtain ⟨n', c₃, hrun, rfl, hc₃⟩ := h t'.span c₂.val rest hc₂ hends
  rw [parseElse, if_pos hsees, hnext]
  dsimp only [bind, Except.bind]
  rw [if_pos hif, hnext']
  dsimp only
  rw [hrun]
  exact ⟨_, _, rfl, rfl, hc₃⟩

theorem readsBlock (h : ReadsStmts ts ns) : ReadsBlock (.openBrace :: ts ++ [.closeBrace]) ns := by
  intro c rest hc
  rw [List.append_assoc, List.cons_append] at hc
  obtain ⟨c₁, hopen, hc₁⟩ := exists_expect hc
  obtain ⟨ns', c₂, hrun, hns, hc₂⟩ := h.2 c₁.val rest hc₁
  rw [parseBlock, hopen]
  dsimp only [bind, Except.bind]
  rw [hrun]
  exact ⟨_, _, rfl, hns, hc₂⟩

theorem readsStmts_nil : ReadsStmts [] [] := by
  refine ⟨nofun, fun c rest hc => ?_⟩
  obtain ⟨t, c₁, hnext, ht, hc₁⟩ := exists_next hc
  rw [parseStatements, hnext]
  dsimp only [bind, Except.bind]
  rw [if_pos ht]
  exact ⟨_, _, rfl, rfl, hc₁⟩

theorem readsStmts_cons (h : ReadsStmt ts n) (hs : ReadsStmts us ns) :
    ReadsStmts (ts ++ us) (n :: ns) := by
  obtain ⟨t, ws, rfl, hclose, helse, h⟩ := h
  refine ⟨fun hhead => helse (Option.some.inj hhead), fun c rest hc => ?_⟩
  rw [List.append_assoc] at hc
  obtain ⟨token, c₁, hnext, ht, hc₁⟩ := exists_next hc
  -- the rest of the statements never begins with an alternative
  have hends : EndsCond (us ++ .closeBrace :: rest) := by
    have hfirst := hs.1
    cases us <;> exact hfirst
  obtain ⟨n', c₂, hrun, rfl, hc₂⟩ := h token c₁.val _ ht hc₁ hends
  obtain ⟨ns', c₃, hrest, rfl, hc₃⟩ := hs.2 c₂.val rest hc₂
  rw [parseStatements, hnext]
  dsimp only [bind, Except.bind]
  rw [if_neg (ht.symm ▸ hclose), hrun]
  dsimp only
  rw [hrest]
  exact ⟨_, _, rfl, rfl, hc₃⟩

mutual

theorem reads_stmt : ∀ {ts : List Token} {n : Node}, Stmt ts n → ReadsStmt ts n
  | _, _, .cond h => readsStmt_cond (reads_cond h)
  | _, _, .unroll hlow hhigh h => readsStmt_unroll hlow hhigh (reads_block h)
  | _, _, .declaration ht hv => readsStmt_assign none (reads_place ht) (reads_expr hv).1
  | _, _, .assignment op ht hv => readsStmt_assign (some op) (reads_place ht) (reads_expr hv).1
  | _, _, .call h => readsStmt_call (reads_call h)

theorem reads_cond : ∀ {ts : List Token} {n : Node}, Cond ts n → ReadsCond ts n
  | _, _, .intro hcond hyes hno =>
    readsCond (reads_expr hcond).1 (reads_block hyes) (reads_else hno)

theorem reads_else : ∀ {ts : List Token} {ns : List Node}, Else ts ns → ReadsElse ts ns
  | _, _, .none => readsElse_none
  | _, _, .block h => readsElse_block h (reads_block h)
  | _, _, .cond h => readsElse_cond (reads_cond h)

theorem reads_block : ∀ {ts : List Token} {ns : List Node}, Block ts ns → ReadsBlock ts ns
  | _, _, .intro h => readsBlock (reads_stmts h)

theorem reads_stmts : ∀ {ts : List Token} {ns : List Node}, Stmts ts ns → ReadsStmts ts ns
  | _, _, .nil => readsStmts_nil
  | _, _, .cons h hs => readsStmts_cons (reads_stmt h) (reads_stmts hs)

end

end Node

namespace Probe

open Cursor Grammar

theorem reads_probe {name : Token} {s : String} {ts rest : List Token} {body : List Node} {c : Cursor}
    (hname : ProbeName name s) (hblock : Block ts body)
    (hc : c.tokens = .keyword .probe :: name :: ts ++ rest) :
    Reads erase (parse c) ⟨⟨s, default⟩, body⟩ rest := by
  obtain ⟨c₁, hprobe, hc₁⟩ := exists_expect hc
  obtain ⟨token, c₂, hnext, htoken, hc₂⟩ := exists_next hc₁
  obtain ⟨body', c₃, hrun, rfl, hc₃⟩ := Node.reads_block hblock c₂.val rest hc₂
  rw [parse, hprobe]
  dsimp only [bind, Except.bind]
  rw [hnext]
  dsimp only
  rw [htoken]
  cases hname with
  | name n =>
    dsimp only [pure, Except.pure]
    rw [hrun]
    exact ⟨_, _, rfl, rfl, hc₃⟩
  | text s =>
    dsimp only [pure, Except.pure]
    rw [hrun]
    exact ⟨_, _, rfl, rfl, hc₃⟩

theorem exists_parseAll {ts : List Token} {ps : List Probe} (h : Script ts ps) :
    ∀ c : Cursor, c.tokens = ts → ∃ ps', parseAll c = .ok ps' ∧ ps'.map erase = ps := by
  induction h with
  | nil =>
    intro c hc
    rw [parseAll, if_pos (List.isEmpty_iff.2 (List.map_eq_nil_iff.1 hc))]
    exact ⟨[], rfl, rfl⟩
  | cons hname hblock _ ih =>
    intro c hc
    have hne : ¬(c.rest.isEmpty : Bool) := fun hempty => by
      rw [tokens, List.isEmpty_iff.1 hempty] at hc
      cases hc
    obtain ⟨p, c₁, hp, hp', hc₁⟩ := reads_probe hname hblock hc
    obtain ⟨ps', hps, hps'⟩ := ih c₁.val hc₁
    rw [parseAll, if_neg hne, hp]
    dsimp only [bind, Except.bind]
    rw [hps]
    exact ⟨p :: ps', rfl, congrArg₂ List.cons hp' hps'⟩

/-- Tokens are read as some probes exactly when the grammar derives the probes from them, places
aside; and the grammar derives no other probes from them. -/
theorem ofTokens_reads_grammar (tokens : List (Located Token)) (ps : List Probe) :
    ((∃ ps', ofTokens tokens = .ok ps' ∧ ps'.map erase = ps) ↔
      Script (tokens.map Located.value) ps) ∧
    ∀ ts ps₁ ps₂, Script ts ps₁ → Script ts ps₂ → ps₁ = ps₂ := by
  refine ⟨⟨?_, fun h => exists_parseAll h _ rfl⟩, ?_⟩
  · rintro ⟨ps', hps', rfl⟩
    exact (derived_of_parseAll _ ps' hps').1
  · intro ts ps₁ ps₂ h₁ h₂
    let c : Cursor := ⟨ts.map (⟨·, default⟩), default⟩
    have hc : c.tokens = ts := by
      rw [Cursor.tokens, List.map_map]
      exact List.map_id ts
    obtain ⟨ps', hrun, rfl⟩ := exists_parseAll h₁ c hc
    obtain ⟨ps'', hrun', rfl⟩ := exists_parseAll h₂ c hc
    rw [Except.ok.inj (hrun.symm.trans hrun')]

/-- The tokens of `probe p { if (a - 1 - -2) { } else if (b[c]) { d |= -e; } }`. -/
def chosen : List (Located Token) :=
  [Token.keyword .probe, .name ⟨"p"⟩, .openBrace, .keyword .cond, .openParen, .name ⟨"a"⟩,
    .arith .sub, .int 1, .arith .sub, .arith .sub, .int 2, .closeParen, .openBrace, .closeBrace,
    .keyword .otherwise, .keyword .cond, .openParen, .name ⟨"b"⟩, .openBracket, .name ⟨"c"⟩,
    .closeBracket, .closeParen, .openBrace, .name ⟨"d"⟩, .update .or, .arith .sub, .name ⟨"e"⟩,
    .semicolon, .closeBrace, .closeBrace].map (⟨·, default⟩)

/-- The probe that the tokens write. -/
def chosenTree : Probe where
  name := ⟨"p", default⟩
  body :=
    [.cond .bare
      (.binary .bare (.arith .sub)
        (.binary .bare (.arith .sub) (.var .bare ⟨"a"⟩) (.int .bare 1)) (.int .bare (-2)))
      []
      [.cond .bare (.mapAccess .bare ⟨"b"⟩ [.var .bare ⟨"c"⟩])
        [.assignment .bare .or (.var .bare ⟨"d"⟩)
          (.binary .bare (.arith .sub) (.int .bare 0) (.var .bare ⟨"e"⟩))]
        []]]

theorem chosen_derived :
    Script (chosen.map Located.value) [chosenTree] ∧
      ∀ ps, Script (chosen.map Located.value) ps → ps = [chosenTree] := by
  obtain ⟨hreads, hunique⟩ := ofTokens_reads_grammar chosen [chosenTree]
  have htree : Script (chosen.map Located.value) [chosenTree] := by
    refine hreads.1 ⟨?_, ?_, ?_⟩
    rotate_left 1
    · conv => lhs; cbv
    · rfl
  exact ⟨htree, fun ps hps => hunique _ ps [chosenTree] hps htree⟩

end Probe

end TraceScript
