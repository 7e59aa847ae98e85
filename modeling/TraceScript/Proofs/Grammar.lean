import Mathlib.Logic.Basic
import TraceScript.Compile
import TraceScript.Proofs.Erased
import TraceScript.Proofs.Parsed
import TraceScript.Proofs.Run

/-!
The grammar of scripts, as rules that say which tokens write which tree. Operators associate to the
left and bind in seven levels; a rule for a level takes an operand of the same level on its left and
one of the next level on its right. Trees are compared without the places of their tokens. Reading
accepts only what the rules derive, and builds trees as they are written.
-/
namespace TraceScript

open Run

/-- The tag of a node of which only the form is known. -/
def Tag.bare : Tag := { span := default }

def BinaryOp.token : BinaryOp → Token
  | arith op => .arith op
  | compare op => .compare op

namespace Grammar

/-- A minus before an integer changes its sign; before anything else it subtracts from zero. -/
def negative : Node → Node
  | .int _ value => .int .bare (-value)
  | n => .binary .bare (.arith .sub) (.int .bare 0) n

mutual

/-- An expression whose operators bind at least as tightly as a level. -/
inductive Expr : Nat → List Token → Node → Prop
  | unary {ts : List Token} {n : Node} : Unary ts n → Expr BinaryOp.levels ts n
  | operand {level : Nat} {ts : List Token} {n : Node} : level < BinaryOp.levels →
      Expr (level + 1) ts n → Expr level ts n
  | operation {op : BinaryOp} {ts us : List Token} {l r : Node} : Expr op.level ts l →
      Expr (op.level + 1) us r → Expr op.level (ts ++ op.token :: us) (.binary .bare op l r)

inductive Unary : List Token → Node → Prop
  | minus {ts : List Token} {n : Node} : Unary ts n → Unary (.arith .sub :: ts) (negative n)
  | primary {ts : List Token} {n : Node} : Primary ts n → Unary ts n

inductive Primary : List Token → Node → Prop
  | int (value : Int64) : Primary [.int value] (.int .bare value)
  | text (value : String) : Primary [.text value] (.text .bare value)
  | place {ts : List Token} {n : Node} : Place ts n → Primary ts n
  | call {ts : List Token} {n : Node} : Invocation ts n → Primary ts n
  | paren {ts : List Token} {n : Node} : Expr 0 ts n →
      Primary (.openParen :: ts ++ [.closeParen]) n

/-- A variable or an entry of a map. -/
inductive Place : List Token → Node → Prop
  | var (name : Name) : Place [.name name] (.var .bare name)
  | entry (map : Name) {ts : List Token} {keys : List Node} : Exprs ts keys →
      Place (.name map :: .openBracket :: ts ++ [.closeBracket]) (.mapAccess .bare map keys)

inductive Invocation : List Token → Node → Prop
  | empty (function : Name) :
      Invocation [.name function, .openParen, .closeParen] (.call .bare function [])
  | args (function : Name) {ts : List Token} {args : List Node} : Exprs ts args →
      Invocation (.name function :: .openParen :: ts ++ [.closeParen]) (.call .bare function args)

/-- One expression or more, with commas between them. -/
inductive Exprs : List Token → List Node → Prop
  | one {ts : List Token} {n : Node} : Expr 0 ts n → Exprs ts [n]
  | more {ts us : List Token} {n : Node} {ns : List Node} : Expr 0 ts n → Exprs us ns →
      Exprs (ts ++ .comma :: us) (n :: ns)

end

mutual

inductive Stmt : List Token → Node → Prop
  | cond {ts : List Token} {n : Node} : Cond ts n → Stmt ts n
  | unroll {value : Int64} {ts : List Token} {body : List Node} : 0 ≤ value.toInt →
      value.toInt ≤ maxCount → Block ts body →
      Stmt (.keyword .unroll :: .openParen :: .int value :: .closeParen :: ts)
        (.unroll .bare value.toInt.toNat body)
  | declaration {ts us : List Token} {target value : Node} : Place ts target → Expr 0 us value →
      Stmt (ts ++ .assign :: us ++ [.semicolon]) (.declaration .bare target value)
  | assignment (op : ArithOp) {ts us : List Token} {target value : Node} : Place ts target →
      Expr 0 us value → Stmt (ts ++ .update op :: us ++ [.semicolon]) (.assignment .bare op target value)
  | call {ts : List Token} {n : Node} : Invocation ts n → Stmt (ts ++ [.semicolon]) n

inductive Cond : List Token → Node → Prop
  | intro {ts us vs : List Token} {condition : Node} {yes no : List Node} : Expr 0 ts condition →
      Block us yes → Else vs no →
      Cond (.keyword .cond :: .openParen :: ts ++ .closeParen :: us ++ vs)
        (.cond .bare condition yes no)

/-- A condition after `else` is the only statement of a list. -/
inductive Else : List Token → List Node → Prop
  | none : Else [] []
  | block {ts : List Token} {ns : List Node} : Block ts ns → Else (.keyword .otherwise :: ts) ns
  | cond {ts : List Token} {n : Node} : Cond ts n → Else (.keyword .otherwise :: ts) [n]

inductive Block : List Token → List Node → Prop
  | intro {ts : List Token} {ns : List Node} : Stmts ts ns →
      Block (.openBrace :: ts ++ [.closeBrace]) ns

inductive Stmts : List Token → List Node → Prop
  | nil : Stmts [] []
  | cons {ts us : List Token} {n : Node} {ns : List Node} : Stmt ts n → Stmts us ns →
      Stmts (ts ++ us) (n :: ns)

end

/-- The name of a probe is an identifier or a text. -/
inductive ProbeName : Token → String → Prop
  | name (n : Name) : ProbeName (.name n) n.text
  | text (s : String) : ProbeName (.text s) s

inductive Script : List Token → List Probe → Prop
  | nil : Script [] []
  | cons {name : Token} {s : String} {ts us : List Token} {body : List Node} {ps : List Probe} :
      ProbeName name s → Block ts body → Script us ps →
      Script (.keyword .probe :: name :: ts ++ us) (⟨⟨s, default⟩, body⟩ :: ps)

end Grammar

namespace Grammar

variable (f : MapId → MapId)

theorem rename_negative {n : Node} (h : n.rename f = n) : (negative n).rename f = negative n := by
  cases n with
  | int tag value => rfl
  | _ => exact congrArg (Node.binary .bare (.arith .sub) (.int .bare 0)) h

mutual

theorem Expr.rename : ∀ {level : Nat} {ts : List Token} {n : Node}, Expr level ts n → n.rename f = n
  | _, _, _, .unary h => h.rename
  | _, _, _, .operand _ h => h.rename
  | _, _, _, .operation hl hr => congrArg₂ (Node.binary .bare _) hl.rename hr.rename

theorem Unary.rename : ∀ {ts : List Token} {n : Node}, Unary ts n → n.rename f = n
  | _, _, .minus h => rename_negative f h.rename
  | _, _, .primary h => h.rename

theorem Primary.rename : ∀ {ts : List Token} {n : Node}, Primary ts n → n.rename f = n
  | _, _, .int _ => rfl
  | _, _, .text _ => rfl
  | _, _, .place h => h.rename
  | _, _, .call h => h.rename
  | _, _, .paren h => h.rename

theorem Place.rename : ∀ {ts : List Token} {n : Node}, Place ts n → n.rename f = n
  | _, _, .var _ => rfl
  | _, _, .entry map h => (Node.rename_mapAccess f ..).trans (congrArg (Node.mapAccess .bare map) h.rename)

theorem Invocation.rename : ∀ {ts : List Token} {n : Node}, Invocation ts n → n.rename f = n
  | _, _, .empty _ => rfl
  | _, _, .args function h =>
    (Node.rename_call f ..).trans (congrArg (Node.call .bare function) h.rename)

theorem Exprs.rename : ∀ {ts : List Token} {ns : List Node}, Exprs ts ns → ns.map (Node.rename f) = ns
  | _, _, .one h => congrArg ([·]) h.rename
  | _, _, .more h hs => congrArg₂ List.cons h.rename hs.rename

end

mutual

theorem Stmt.rename : ∀ {ts : List Token} {n : Node}, Stmt ts n → n.rename f = n
  | _, _, .cond h => h.rename
  | _, _, .unroll _ _ h => (Node.rename_unroll f ..).trans (congrArg (Node.unroll .bare _) h.rename)
  | _, _, .declaration ht hv => congrArg₂ (Node.declaration .bare) (ht.rename f) (hv.rename f)
  | _, _, .assignment op ht hv => congrArg₂ (Node.assignment .bare op) (ht.rename f) (hv.rename f)
  | _, _, .call h => h.rename f

theorem Cond.rename : ∀ {ts : List Token} {n : Node}, Cond ts n → n.rename f = n
  | _, _, .intro hcond hyes hno => by
    rw [Node.rename_cond, hcond.rename f, hyes.rename, hno.rename]
    rfl

theorem Else.rename : ∀ {ts : List Token} {ns : List Node}, Else ts ns → ns.map (Node.rename f) = ns
  | _, _, .none => rfl
  | _, _, .block h => h.rename
  | _, _, .cond h => congrArg ([·]) h.rename

theorem Block.rename : ∀ {ts : List Token} {ns : List Node}, Block ts ns → ns.map (Node.rename f) = ns
  | _, _, .intro h => h.rename

theorem Stmts.rename : ∀ {ts : List Token} {ns : List Node}, Stmts ts ns → ns.map (Node.rename f) = ns
  | _, _, .nil => rfl
  | _, _, .cons h hs => congrArg₂ List.cons h.rename hs.rename

end

theorem Script.rename {ts : List Token} {ps : List Probe} (h : Script ts ps) :
    ∀ p ∈ ps, p.rename f = p := by
  induction h with
  | nil => exact nofun
  | cons _ hblock _ ih =>
    intro p hp
    rcases List.mem_cons.1 hp with rfl | hp
    · exact congrArg (Probe.mk _) (hblock.rename f)
    · exact ih p hp

end Grammar

theorem Token.binaryOp?_eq_some {t : Token} {op : BinaryOp} : t.binaryOp? = some op ↔ t = op.token := by
  cases t <;> cases op <;> simp [binaryOp?, BinaryOp.token]

namespace Cursor

/-- The tokens that are left, without their places. -/
def tokens (c : Cursor) : List Token := c.rest.map Located.value

variable {c : Cursor}

theorem peek_eq (c : Cursor) : c.peek = c.tokens.head? := by
  rw [peek, tokens, List.head?_map]

theorem sees_iff {t : Token} : c.sees t ↔ c.tokens.head? = some t := by
  rw [sees, peek_eq, beq_iff_eq]

theorem next_ok {t : Located Token} {d : After c} (h : c.next = .ok (t, d)) :
    c.tokens = t.value :: d.val.tokens := by
  unfold next at h
  split at h
  · cases h
  · rename_i hrest
    cases h
    exact congrArg (List.map Located.value) hrest

theorem expect_ok {t : Token} {d : After c} (h : c.expect t = .ok d) :
    c.tokens = t :: d.val.tokens := by
  unfold expect at h
  split at h
  · cases h
  · rename_i hrest
    split at h
    · rename_i heq
      cases h
      exact heq ▸ congrArg (List.map Located.value) hrest
    · cases h

theorem exists_next {t : Token} {ts : List Token} (h : c.tokens = t :: ts) :
    ∃ (l : Located Token) (d : After c), c.next = .ok (l, d) ∧ l.value = t ∧ d.val.tokens = ts := by
  unfold next
  split
  · rename_i hrest
    rw [tokens, hrest] at h
    cases h
  · rename_i l ls hrest
    rw [tokens, hrest] at h
    obtain ⟨hl, hls⟩ := List.cons.inj h
    exact ⟨l, _, rfl, hl, hls⟩

theorem exists_expect {t : Token} {ts : List Token} (h : c.tokens = t :: ts) :
    ∃ d : After c, c.expect t = .ok d ∧ d.val.tokens = ts := by
  unfold expect
  split
  · rename_i hrest
    rw [tokens, hrest] at h
    cases h
  · rename_i l ls hrest
    rw [tokens, hrest] at h
    obtain ⟨hl, hls⟩ := List.cons.inj h
    exact ⟨_, if_pos hl, hls⟩

end Cursor

namespace Node

open Cursor

theorem erase_negate (minus : Span) (n : Node) :
    (negate minus n).erase = Grammar.negative n.erase := by
  cases n <;> rfl

theorem negate_expression {minus : Span} {n : Node} (h : Expression n) :
    Expression (negate minus n) := by
  cases n with
  | int tag value => exact .int rfl
  | _ => exact .binary rfl (.int rfl) h

theorem derived_of_parse_expression_all :
    (∀ level c, level ≤ BinaryOp.levels → ∀ n d, parseBinary level c = .ok (n, d) →
      ∃ ts, c.tokens = ts ++ d.val.tokens ∧ Grammar.Expr level ts n.erase ∧ Expression n) ∧
    (∀ level lhs c, level < BinaryOp.levels → ∀ n d, parseOperators level lhs c = .ok (n, d) →
      ∃ us, c.tokens = us ++ d.val.tokens ∧
        (∀ ts, Grammar.Expr level ts lhs.erase → Grammar.Expr level (ts ++ us) n.erase) ∧
        (Expression lhs → Expression n)) ∧
    (∀ c, ∀ n d, parseUnary c = .ok (n, d) →
      ∃ ts, c.tokens = ts ++ d.val.tokens ∧ Grammar.Unary ts n.erase ∧ Expression n) ∧
    (∀ c, ∀ n d, parsePrimary c = .ok (n, d) →
      ∃ ts, c.tokens = ts ++ d.val.tokens ∧ Grammar.Primary ts n.erase ∧ Expression n) ∧
    (∀ name start c, ∀ n d, parsePlace name start c = .ok (n, d) →
      ∃ ts, c.tokens = ts ++ d.val.tokens ∧ Grammar.Place (.name name :: ts) n.erase ∧ Place n) ∧
    (∀ c, ∀ ns d, parseList c = .ok (ns, d) →
      ∃ ts, c.tokens = ts ++ d.val.tokens ∧ Grammar.Exprs ts (ns.map erase) ∧
        ns ≠ [] ∧ ∀ n ∈ ns, Expression n) ∧
    (∀ name start c, ∀ n d, parseCall name start c = .ok (n, d) →
      ∃ ts, c.tokens = ts ++ d.val.tokens ∧ Grammar.Invocation (.name name :: ts) n.erase ∧
        Expression n ∧ Statement n) ∧
    (∀ c, ∀ ns d, parseArgs c = .ok (ns, d) →
      (ns = [] ∧ c.tokens = d.val.tokens) ∨
        ∃ ts, c.tokens = ts ++ d.val.tokens ∧ Grammar.Exprs ts (ns.map erase) ∧
          ∀ n ∈ ns, Expression n) := by
  apply parseBinary.mutual_induct
  case case1 =>
    intro level c hl ih hle n d h
    rw [parseBinary, if_pos hl] at h
    obtain ⟨ts, hts, hunary, hn⟩ := ih n d h
    obtain rfl := Nat.le_antisymm hle hl
    exact ⟨ts, hts, .unary hunary, hn⟩
  case case2 =>
    intro level c hl ih ihOps hle n d h
    have hlt := Nat.lt_of_not_le hl
    rw [parseBinary, if_neg hl, except_bind_ok] at h
    obtain ⟨⟨lhs, c₁⟩, hlhs, h⟩ := h
    obtain ⟨⟨node, c₂⟩, hnode, h⟩ := except_bind_ok.1 h
    cases h
    obtain ⟨ts, hts, hexpr, hl⟩ := ih hlt _ _ hlhs
    obtain ⟨us, hus, hops, hn⟩ := ihOps lhs c₁ hlt _ _ hnode
    exact ⟨ts ++ us, by rw [hts, hus, List.append_assoc], hops ts (.operand hlt hexpr), hn hl⟩
  case case3 =>
    intro level lhs c hop hlt n d h
    rw [parseOperators, hop] at h
    cases h
    exact ⟨[], rfl, fun ts hts => by rwa [List.append_nil], id⟩
  case case4 =>
    intro lhs c op hop ih ihOps hlt n d h
    rw [parseOperators, hop] at h
    dsimp only at h
    rw [if_pos rfl] at h
    obtain ⟨⟨token, c₁⟩, hnext, h⟩ := except_bind_ok.1 h
    obtain ⟨⟨rhs, c₂⟩, hrhs, h⟩ := except_bind_ok.1 h
    obtain ⟨⟨node, c₃⟩, hnode, h⟩ := except_bind_ok.1 h
    cases h
    have hfirst := next_ok hnext
    obtain ⟨us, hus, hexpr, hr⟩ := ih _ hlt _ _ hrhs
    obtain ⟨vs, hvs, hops, hn⟩ := ihOps c₁ rhs c₂ hlt _ _ hnode
    have htoken : token.value = op.token := by
      rw [peek_eq, hfirst] at hop
      exact Token.binaryOp?_eq_some.1 hop
    refine ⟨op.token :: us ++ vs, ?_, fun ts hts => ?_, fun hl => hn (.binary rfl hl hr)⟩
    · rw [hfirst, htoken, hus, hvs]
      simp
    · have hmore := hops _ (.operation hts hexpr)
      rwa [List.append_assoc] at hmore
  case case5 =>
    intro level lhs c op hop hne hlt n d h
    rw [parseOperators, hop] at h
    dsimp only at h
    rw [if_neg hne] at h
    cases h
    exact ⟨[], rfl, fun ts hts => by rwa [List.append_nil], id⟩
  case case6 =>
    intro c hsees ih n d h
    rw [parseUnary, if_pos hsees] at h
    obtain ⟨⟨token, c₁⟩, hnext, h⟩ := except_bind_ok.1 h
    obtain ⟨⟨operand, c₂⟩, hop, h⟩ := except_bind_ok.1 h
    cases h
    have hfirst := next_ok hnext
    rw [sees_iff, hfirst] at hsees
    obtain ⟨ts, hts, hunary, hn⟩ := ih _ _ _ hop
    refine ⟨.arith .sub :: ts, ?_, erase_negate .. ▸ .minus hunary, negate_expression hn⟩
    rw [hfirst, Option.some.inj hsees, hts]
    rfl
  case case7 =>
    intro c hsees ih n d h
    rw [parseUnary, if_neg hsees] at h
    obtain ⟨ts, hts, hprimary, hn⟩ := ih n d h
    exact ⟨ts, hts, .primary hprimary, hn⟩
  case case8 =>
    intro c ihExpr ihCall ihPlace n d h
    rw [parsePrimary] at h
    obtain ⟨⟨token, c₁⟩, hnext, h⟩ := except_bind_ok.1 h
    have hfirst := next_ok hnext
    dsimp only at h
    split at h
    · rename_i node hopen
      cases h
      unfold opening at hopen
      split at hopen <;> cases hopen
      · rename_i value hvalue
        exact ⟨[.int value], by rw [hfirst, hvalue]; rfl, .int value, .int rfl⟩
      · rename_i value hvalue
        exact ⟨[.text value], by rw [hfirst, hvalue]; rfl, .text value, .text rfl⟩
    · rename_i hopen
      have hvalue : token.value = .openParen := by
        unfold opening at hopen
        split at hopen <;> first | assumption | cases hopen
      obtain ⟨⟨node, c₂⟩, hnode, h⟩ := except_bind_ok.1 h
      obtain ⟨c₃, hclose, h⟩ := except_bind_ok.1 h
      cases h
      obtain ⟨ts, hts, hexpr, hn⟩ := ihExpr _ (Nat.zero_le _) _ _ hnode
      refine ⟨.openParen :: ts ++ [.closeParen], ?_, .paren hexpr, hn⟩
      rw [hfirst, hvalue, hts, expect_ok hclose]
      simp
    · rename_i name hopen
      have hvalue : token.value = .name name := by
        unfold opening at hopen
        split at hopen <;> cases hopen
        assumption
      split at h
      · obtain ⟨⟨node, c₂⟩, hnode, h⟩ := except_bind_ok.1 h
        cases h
        obtain ⟨ts, hts, hcall, hn, -⟩ := ihCall _ _ _ _ _ hnode
        exact ⟨.name name :: ts, by rw [hfirst, hvalue, hts]; rfl, .call hcall, hn⟩
      · obtain ⟨⟨node, c₂⟩, hnode, h⟩ := except_bind_ok.1 h
        cases h
        obtain ⟨ts, hts, hplace, hn⟩ := ihPlace _ _ _ _ _ hnode
        exact ⟨.name name :: ts, by rw [hfirst, hvalue, hts]; rfl, .place hplace, hn.expression⟩
    · cases h
  case case9 =>
    intro name start c hsees ih n d h
    rw [parsePlace, if_pos hsees] at h
    obtain ⟨⟨token, c₁⟩, hnext, h⟩ := except_bind_ok.1 h
    obtain ⟨⟨keys, c₂⟩, hkeys, h⟩ := except_bind_ok.1 h
    obtain ⟨c₃, hclose, h⟩ := except_bind_ok.1 h
    cases h
    have hfirst := next_ok hnext
    rw [sees_iff, hfirst] at hsees
    obtain ⟨ts, hts, hexprs, hne, hk⟩ := ih _ _ _ hkeys
    refine ⟨.openBracket :: ts ++ [.closeBracket], ?_, erase_mapAccess .. ▸ .entry name hexprs,
      .mapAccess rfl hne hk⟩
    rw [hfirst, Option.some.inj hsees, hts, expect_ok hclose]
    simp
  case case10 =>
    intro name start c hsees n d h
    rw [parsePlace, if_neg hsees] at h
    cases h
    exact ⟨[], rfl, .var name, .var rfl⟩
  case case11 =>
    intro c ihFirst ihRest ns d h
    rw [parseList] at h
    obtain ⟨⟨first, c₁⟩, hfirst, h⟩ := except_bind_ok.1 h
    obtain ⟨ts, hts, hexpr, hn⟩ := ihFirst (Nat.zero_le _) _ _ hfirst
    dsimp only at h
    split at h
    · rename_i hsees
      obtain ⟨⟨token, c₂⟩, hnext, h⟩ := except_bind_ok.1 h
      obtain ⟨⟨others, c₃⟩, hothers, h⟩ := except_bind_ok.1 h
      cases h
      have hcomma := next_ok hnext
      rw [sees_iff, hcomma] at hsees
      obtain ⟨us, hus, hexprs, -, hall⟩ := ihRest _ _ _ _ hothers
      refine ⟨ts ++ .comma :: us, ?_, .more hexpr hexprs, List.cons_ne_nil _ _,
        List.forall_mem_cons.2 ⟨hn, hall⟩⟩
      rw [hts, hcomma, Option.some.inj hsees, hus]
      simp
    · cases h
      exact ⟨ts, hts, .one hexpr, List.cons_ne_nil _ _, List.forall_mem_singleton.2 hn⟩
  case case12 =>
    intro name start c ih n d h
    rw [parseCall] at h
    obtain ⟨c₁, hopen, h⟩ := except_bind_ok.1 h
    obtain ⟨⟨args, c₂⟩, hargs, h⟩ := except_bind_ok.1 h
    obtain ⟨c₃, hclose, h⟩ := except_bind_ok.1 h
    cases h
    obtain ⟨rfl, heq⟩ | ⟨ts, hts, hexprs, ha⟩ := ih _ _ _ hargs
    · have hnone : ∀ a ∈ ([] : List Node), Expression a := fun _ ha => (List.not_mem_nil ha).elim
      refine ⟨[.openParen, .closeParen], ?_, .empty name, .call rfl hnone, .call rfl hnone⟩
      rw [expect_ok hopen, heq, expect_ok hclose]
      rfl
    · refine ⟨.openParen :: ts ++ [.closeParen], ?_, erase_call .. ▸ .args name hexprs, .call rfl ha,
        .call rfl ha⟩
      rw [expect_ok hopen, hts, expect_ok hclose]
      simp
  case case13 =>
    intro c hsome ih ns d h
    rw [parseArgs, if_pos hsome] at h
    obtain ⟨⟨args, c₁⟩, hargs, h⟩ := except_bind_ok.1 h
    cases h
    obtain ⟨ts, hts, hexprs, -, ha⟩ := ih _ _ hargs
    exact .inr ⟨ts, hts, hexprs, ha⟩
  case case14 =>
    intro c hnone ns d h
    rw [parseArgs, if_neg hnone] at h
    cases h
    exact .inl ⟨rfl, rfl⟩

theorem derived_of_parseExpr {c : Cursor} {n : Node} {d : After c} (h : parseExpr c = .ok (n, d)) :
    ∃ ts, c.tokens = ts ++ d.val.tokens ∧ Grammar.Expr 0 ts n.erase ∧ Expression n :=
  derived_of_parse_expression_all.1 0 c (Nat.zero_le _) n d h

theorem derived_of_parseSimple {name : Name} {start : Span} {c : Cursor} {n : Node} {d : After c}
    (h : parseSimple name start c = .ok (n, d)) :
    ∃ ts, c.tokens = ts ++ d.val.tokens ∧ Grammar.Stmt (.name name :: ts) n.erase ∧ Statement n := by
  obtain ⟨-, -, -, -, hplaces, -, hcalls, -⟩ := derived_of_parse_expression_all
  unfold parseSimple at h
  split at h
  · obtain ⟨⟨node, c₁⟩, hnode, h⟩ := except_bind_ok.1 h
    obtain ⟨c₂, hsemi, h⟩ := except_bind_ok.1 h
    cases h
    obtain ⟨ts, hts, hcall, -, hn⟩ := hcalls _ _ _ _ _ hnode
    exact ⟨ts ++ [Token.semicolon], by rw [hts, expect_ok hsemi]; simp, .call hcall, hn⟩
  · obtain ⟨⟨target, c₁⟩, htarget, h⟩ := except_bind_ok.1 h
    obtain ⟨⟨token, c₂⟩, hnext, h⟩ := except_bind_ok.1 h
    obtain ⟨ts, hts, hplace, ht⟩ := hplaces _ _ _ _ _ htarget
    have hfirst := next_ok hnext
    dsimp only at h
    split at h
    · rename_i hvalue
      obtain ⟨op, ⟨⟩, h⟩ := except_bind_ok.1 h
      obtain ⟨⟨value, c₃⟩, hexpr, h⟩ := except_bind_ok.1 h
      obtain ⟨c₄, hsemi, h⟩ := except_bind_ok.1 h
      cases h
      obtain ⟨us, hus, hexpr, hv⟩ := derived_of_parseExpr hexpr
      refine ⟨ts ++ Token.assign :: us ++ [Token.semicolon], ?_, .declaration hplace hexpr,
        .declaration ht hv⟩
      rw [hts, hfirst, hvalue, hus, expect_ok hsemi]
      simp
    · rename_i op hvalue
      obtain ⟨op, ⟨⟩, h⟩ := except_bind_ok.1 h
      obtain ⟨⟨value, c₃⟩, hexpr, h⟩ := except_bind_ok.1 h
      obtain ⟨c₄, hsemi, h⟩ := except_bind_ok.1 h
      cases h
      obtain ⟨us, hus, hexpr, hv⟩ := derived_of_parseExpr hexpr
      refine ⟨ts ++ Token.update op :: us ++ [Token.semicolon], ?_, .assignment op hplace hexpr,
        .assignment ht hv⟩
      rw [hts, hfirst, hvalue, hus, expect_ok hsemi]
      simp
    · cases h

theorem derived_of_parse_statement_all :
    (∀ c, ∀ ns d, parseStatements c = .ok (ns, d) →
      ∃ ts, c.tokens = ts ++ .closeBrace :: d.val.tokens ∧ Grammar.Stmts ts (ns.map erase) ∧
        ∀ n ∈ ns, Statement n) ∧
    (∀ token c, ∀ n d, parseStatement token c = .ok (n, d) →
      ∃ ts, c.tokens = ts ++ d.val.tokens ∧ Grammar.Stmt (token.value :: ts) n.erase ∧
        Statement n) ∧
    (∀ start c, ∀ n d, parseUnroll start c = .ok (n, d) →
      ∃ ts, c.tokens = ts ++ d.val.tokens ∧ Grammar.Stmt (.keyword .unroll :: ts) n.erase ∧
        Statement n) ∧
    (∀ c, ∀ ns d, parseBlock c = .ok (ns, d) →
      ∃ ts, c.tokens = ts ++ d.val.tokens ∧ Grammar.Block ts (ns.map erase) ∧
        ∀ n ∈ ns, Statement n) ∧
    (∀ start c, ∀ n d, parseCond start c = .ok (n, d) →
      ∃ ts, c.tokens = ts ++ d.val.tokens ∧ Grammar.Cond (.keyword .cond :: ts) n.erase ∧
        Statement n) ∧
    (∀ c, ∀ ns d, parseElse c = .ok (ns, d) →
      ∃ ts, c.tokens = ts ++ d.val.tokens ∧ Grammar.Else ts (ns.map erase) ∧
        ∀ n ∈ ns, Statement n) := by
  apply parseStatements.mutual_induct
  case case1 =>
    intro c ihFirst ihRest ns d h
    rw [parseStatements] at h
    obtain ⟨⟨token, c₁⟩, hnext, h⟩ := except_bind_ok.1 h
    have hfirst := next_ok hnext
    dsimp only at h
    split at h
    · rename_i hclose
      cases h
      exact ⟨[], by rw [hfirst, hclose]; rfl, .nil, nofun⟩
    · obtain ⟨⟨first, c₂⟩, hstmt, h⟩ := except_bind_ok.1 h
      obtain ⟨⟨others, c₃⟩, hothers, h⟩ := except_bind_ok.1 h
      cases h
      obtain ⟨ts, hts, hstmt, hn⟩ := ihFirst _ _ _ _ hstmt
      obtain ⟨us, hus, hstmts, hall⟩ := ihRest _ _ _ _ hothers
      refine ⟨token.value :: ts ++ us, ?_, .cons hstmt hstmts, List.forall_mem_cons.2 ⟨hn, hall⟩⟩
      rw [hfirst, hts, hus]
      simp
  case case2 =>
    intro token c hv ih n d h
    rw [parseStatement, hv] at h
    obtain ⟨ts, hts, hcond, hn⟩ := ih n d h
    exact ⟨ts, hts, hv ▸ .cond hcond, hn⟩
  case case3 =>
    intro token c hv ih n d h
    rw [parseStatement, hv] at h
    obtain ⟨ts, hts, hunroll, hn⟩ := ih n d h
    exact ⟨ts, hts, hv ▸ hunroll, hn⟩
  case case4 =>
    intro token c name hv n d h
    rw [parseStatement, hv] at h
    obtain ⟨ts, hts, hstmt, hn⟩ := derived_of_parseSimple h
    exact ⟨ts, hts, hv ▸ hstmt, hn⟩
  case case5 =>
    intro token c hc hu hn n d h
    rw [parseStatement] at h
    split at h
    · exact absurd ‹_› hc
    · exact absurd ‹_› hu
    · exact absurd ‹_› (hn _)
    · cases h
  case case6 =>
    intro start c ih n d h
    rw [parseUnroll] at h
    obtain ⟨c₁, hopen, h⟩ := except_bind_ok.1 h
    obtain ⟨⟨token, c₂⟩, hnext, h⟩ := except_bind_ok.1 h
    dsimp only at h
    split at h
    · rename_i value hvalue
      split at h
      · rename_i hrange
        obtain ⟨count, ⟨⟩, h⟩ := except_bind_ok.1 h
        obtain ⟨c₃, hclose, h⟩ := except_bind_ok.1 h
        obtain ⟨⟨body, c₄⟩, hbody, h⟩ := except_bind_ok.1 h
        cases h
        obtain ⟨ts, hts, hblock, hall⟩ := ih _ _ _ _ _ hbody
        refine ⟨.openParen :: .int value :: .closeParen :: ts, ?_,
          erase_unroll .. ▸ .unroll hrange.1 hrange.2 hblock, .unroll hall⟩
        rw [expect_ok hopen, next_ok hnext, hvalue, expect_ok hclose, hts]
        simp
      · cases h
    · cases h
  case case7 =>
    intro c ih ns d h
    rw [parseBlock] at h
    obtain ⟨c₁, hopen, h⟩ := except_bind_ok.1 h
    obtain ⟨⟨body, c₂⟩, hbody, h⟩ := except_bind_ok.1 h
    cases h
    obtain ⟨ts, hts, hstmts, hall⟩ := ih _ _ _ hbody
    refine ⟨.openBrace :: ts ++ [.closeBrace], ?_, .intro hstmts, hall⟩
    rw [expect_ok hopen, hts]
    simp
  case case8 =>
    intro start c ihYes ihNo n d h
    rw [parseCond] at h
    obtain ⟨c₁, hopen, h⟩ := except_bind_ok.1 h
    obtain ⟨⟨condition, c₂⟩, hcond, h⟩ := except_bind_ok.1 h
    obtain ⟨c₃, hclose, h⟩ := except_bind_ok.1 h
    obtain ⟨⟨yes, c₄⟩, hyes, h⟩ := except_bind_ok.1 h
    obtain ⟨⟨no, c₅⟩, hno, h⟩ := except_bind_ok.1 h
    cases h
    obtain ⟨ts, hts, hexpr, hn⟩ := derived_of_parseExpr hcond
    obtain ⟨us, hus, hblock, hyes⟩ := ihYes _ _ _ _ _ hyes
    obtain ⟨vs, hvs, helse, hno⟩ := ihNo _ _ _ _ _ _ hno
    refine ⟨.openParen :: ts ++ .closeParen :: us ++ vs, ?_,
      erase_cond .. ▸ .intro hexpr hblock helse, .cond hn hyes hno⟩
    rw [expect_ok hopen, hts, expect_ok hclose, hus, hvs]
    simp
  case case9 =>
    intro c hsees ihCond ihBlock ns d h
    rw [parseElse, if_pos hsees] at h
    obtain ⟨⟨token, c₁⟩, hnext, h⟩ := except_bind_ok.1 h
    have hfirst := next_ok hnext
    rw [sees_iff, hfirst] at hsees
    have helse : token.value = .keyword .otherwise := Option.some.inj hsees
    dsimp only at h
    split at h
    · rename_i hif
      obtain ⟨⟨token', c₂⟩, hnext', h⟩ := except_bind_ok.1 h
      obtain ⟨⟨node, c₃⟩, hnode, h⟩ := except_bind_ok.1 h
      cases h
      have hsecond := next_ok hnext'
      rw [sees_iff, hsecond] at hif
      obtain ⟨ts, hts, hcond, hn⟩ := ihCond _ _ _ _ _ hnode
      refine ⟨.keyword .otherwise :: .keyword .cond :: ts, ?_, .cond hcond,
        List.forall_mem_singleton.2 hn⟩
      rw [hfirst, helse, hsecond, Option.some.inj hif, hts]
      rfl
    · obtain ⟨⟨body, c₂⟩, hbody, h⟩ := except_bind_ok.1 h
      cases h
      obtain ⟨ts, hts, hblock, hall⟩ := ihBlock _ _ _ hbody
      refine ⟨.keyword .otherwise :: ts, ?_, .block hblock, hall⟩
      rw [hfirst, helse, hts]
      rfl
  case case10 =>
    intro c hsees ns d h
    rw [parseElse, if_neg hsees] at h
    cases h
    exact ⟨[], rfl, .none, nofun⟩

end Node

namespace Probe

theorem derived_of_parseAll (c : Cursor) :
    ∀ ps, parseAll c = .ok ps →
      Grammar.Script c.tokens (ps.map erase) ∧ ∀ p ∈ ps, ∀ n ∈ p.body, Statement n := by
  have hone : ∀ {c : Cursor} {p : Probe} {d : Cursor.After c}, parse c = .ok (p, d) →
      ∃ name ts, c.tokens = .keyword .probe :: name :: ts ++ d.val.tokens ∧
        Grammar.ProbeName name p.name.value ∧ Grammar.Block ts (p.body.map Node.erase) ∧
        ∀ n ∈ p.body, Statement n := by
    intro c p d h
    unfold parse at h
    obtain ⟨c₁, hprobe, h⟩ := except_bind_ok.1 h
    obtain ⟨⟨token, c₂⟩, hnext, h⟩ := except_bind_ok.1 h
    dsimp only at h
    split at h
    · rename_i name hvalue
      obtain ⟨name, ⟨⟩, h⟩ := except_bind_ok.1 h
      obtain ⟨⟨body, c₃⟩, hbody, h⟩ := except_bind_ok.1 h
      cases h
      obtain ⟨ts, hts, hblock, hall⟩ := Node.derived_of_parse_statement_all.2.2.2.1 _ _ _ hbody
      refine ⟨token.value, ts, ?_, hvalue ▸ .name _, hblock, hall⟩
      rw [Cursor.expect_ok hprobe, Cursor.next_ok hnext, hts]
      rfl
    · rename_i name hvalue
      obtain ⟨name, ⟨⟩, h⟩ := except_bind_ok.1 h
      obtain ⟨⟨body, c₃⟩, hbody, h⟩ := except_bind_ok.1 h
      cases h
      obtain ⟨ts, hts, hblock, hall⟩ := Node.derived_of_parse_statement_all.2.2.2.1 _ _ _ hbody
      refine ⟨token.value, ts, ?_, hvalue ▸ .text _, hblock, hall⟩
      rw [Cursor.expect_ok hprobe, Cursor.next_ok hnext, hts]
      rfl
    · cases h
  induction c using parseAll.induct with
  | case1 c hempty =>
    intro ps h
    rw [parseAll, if_pos hempty] at h
    cases h
    rw [Cursor.tokens, List.isEmpty_iff.1 hempty]
    exact ⟨.nil, nofun⟩
  | case2 c hne ih =>
    intro ps h
    rw [parseAll, if_neg hne] at h
    obtain ⟨⟨p, c₁⟩, hp, h⟩ := except_bind_ok.1 h
    obtain ⟨others, hothers, h⟩ := except_bind_ok.1 h
    cases h
    obtain ⟨name, ts, hts, hname, hblock, hall⟩ := hone hp
    obtain ⟨hscript, hrest⟩ := ih c₁ others hothers
    rw [hts]
    exact ⟨.cons hname hblock hscript, List.forall_mem_cons.2 ⟨hall, hrest⟩⟩

end Probe

theorem parseScript_statements {source : Source} {ps : List Probe}
    (h : parseScript source = .ok ps) : ∀ p ∈ ps, ∀ n ∈ p.body, Statement n := by
  obtain ⟨tokens, -, h⟩ := except_bind_ok.1 h
  exact (Probe.derived_of_parseAll _ ps (mapError_ok.1 h)).2

theorem rename_of_parseScript {source : Source} {ps : List Probe}
    (h : parseScript source = .ok ps) {p : Probe} (hp : p ∈ ps) (f : MapId → MapId) :
    p.erase.rename f = p.erase := by
  obtain ⟨tokens, -, h⟩ := except_bind_ok.1 h
  have hscript := (Probe.derived_of_parseAll _ ps (mapError_ok.1 h)).1
  exact hscript.rename f _ (List.mem_map_of_mem hp)

end TraceScript
