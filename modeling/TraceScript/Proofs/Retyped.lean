import TraceScript.Proofs.Annotated

namespace TraceScript.Annotate

open Run

variable {s s' : Typing}

theorem builtin_of_accepts {name : Name} {b : Builtin} {count : Nat} (span : Span)
    (hname : Builtin.ofName? name = some b) (hcount : b.arity.accepts count = true) :
    builtin name count span = pure b := by
  simp only [builtin, hname, hcount, if_true]

theorem argIndex_retyped {n n' : Node} (h : argIndex n s = .ok n' s') :
    argIndex n' = argIndex n := by
  unfold argIndex at h
  split at h
  · split at h
    · obtain ⟨rfl, -⟩ := estate_pure_ok.1 h
      rfl
    · exact (fail_ok.1 h).elim
  · exact (fail_ok.1 h).elim

theorem argIndices_retyped {ns ns' : List Node} (h : ns.mapM argIndex s = .ok ns' s') :
    ns'.length = ns.length ∧ ns'.mapM argIndex = ns.mapM argIndex := by
  induction ns generalizing ns' s s' with
  | nil =>
    rw [List.mapM_nil] at h
    obtain ⟨rfl, -⟩ := estate_pure_ok.1 h
    exact ⟨rfl, rfl⟩
  | cons n ns ih =>
    rw [List.mapM_cons] at h
    obtain ⟨m, s₁, hm, h₁⟩ := estate_bind_ok.1 h
    obtain ⟨ms, s₂, hms, h₂⟩ := estate_bind_ok.1 h₁
    obtain ⟨rfl, -⟩ := estate_pure_ok.1 h₂
    obtain ⟨hlen, heq⟩ := ih hms
    rw [List.mapM_cons, List.mapM_cons, argIndex_retyped hm, heq, List.length_cons, hlen]
    exact ⟨rfl, rfl⟩

theorem call_retyped {tag : Tag} {function : Name} {args : List Node} {n' : Node}
    (hargs : ∀ {check : Shape → Except SemanticError Unit} {args' : List Node} {s s' : Typing},
      expressions check args s = .ok args' s' →
      args'.length = args.length ∧ ∀ check', expressions check' args' = expressions check' args)
    (h : expression (.call tag function args) s = .ok n' s') :
    ∃ facts args', n' = .call (retag tag facts) function args' ∧ args'.length = args.length ∧
      ∀ t, expression (.call t function args') = expression (.call t function args) := by
  rw [expression] at h
  obtain ⟨b, s₁, hb, h₁⟩ := estate_bind_ok.1 h
  obtain ⟨rfl, hname, harity⟩ := builtin_ok hb
  cases b with
  | arg =>
    obtain ⟨args', s₂, hargs', h₂⟩ := estate_bind_ok.1 h₁
    obtain ⟨rfl, -⟩ := estate_pure_ok.1 h₂
    obtain ⟨hlen, heq⟩ := argIndices_retyped hargs'
    refine ⟨_, args', rfl, hlen, fun t => ?_⟩
    rw [expression, expression, hlen, builtin_of_accepts t.span hname harity, pure_bind, pure_bind]
    simp only [heq]
  | strcmp =>
    obtain ⟨args', s₂, hargs', h₂⟩ := estate_bind_ok.1 h₁
    obtain ⟨rfl, -⟩ := estate_pure_ok.1 h₂
    obtain ⟨hlen, heq⟩ := hargs hargs'
    refine ⟨_, args', rfl, hlen, fun t => ?_⟩
    rw [expression, expression, hlen, builtin_of_accepts t.span hname harity, pure_bind, pure_bind]
    simp only [heq]
  | pid | tid | cpu | ns | comm =>
    obtain ⟨args', s₂, hargs', h₂⟩ := estate_bind_ok.1 h₁
    obtain ⟨rfl, -⟩ := estate_pure_ok.1 hargs'
    obtain ⟨rfl, -⟩ := estate_pure_ok.1 h₂
    exact ⟨_, args, rfl, rfl, fun _ => rfl⟩
  | out =>
    obtain ⟨args', s₂, -, h₂⟩ := estate_bind_ok.1 h₁
    exact (fail_ok.1 h₂).elim

mutual

theorem expression_retyped : ∀ (n : Node) {n' : Node} {s s' : Typing},
    expression n s = .ok n' s' → expression n' = expression n
  | .int tag value, n', s, s', h => by
    rw [expression] at h
    obtain ⟨rfl, -⟩ := estate_pure_ok.1 h
    rw [expression, expression]
    rfl
  | .text tag value, n', s, s', h => by
    rw [expression] at h
    obtain ⟨rfl, -⟩ := estate_pure_ok.1 h
    rw [expression, expression]
    rfl
  | .var tag name, n', s, s', h => by
    rw [expression] at h
    obtain ⟨i, s₁, -, h₁⟩ := estate_bind_ok.1 h
    obtain ⟨sh, s₂, -, h₂⟩ := estate_bind_ok.1 h₁
    obtain ⟨rfl, -⟩ := estate_pure_ok.1 h₂
    rw [expression, expression]
    rfl
  | .mapAccess tag map keys, n', s, s', h => by
    rw [expression] at h
    obtain ⟨keys', s₁, hkeys, h₁⟩ := estate_bind_ok.1 h
    obtain ⟨i, s₂, -, h₂⟩ := estate_bind_ok.1 h₁
    obtain ⟨sh, s₃, -, h₃⟩ := estate_bind_ok.1 h₂
    obtain ⟨rfl, -⟩ := estate_pure_ok.1 h₃
    rw [expression, expression, (expressions_retyped keys hkeys).2 notRecord]
    rfl
  | .binary tag op lhs rhs, n', s, s', h => by
    rw [expression] at h
    obtain ⟨l, s₁, hl, h₁⟩ := estate_bind_ok.1 h
    obtain ⟨r, s₂, hr, h₂⟩ := estate_bind_ok.1 h₁
    obtain ⟨u, s₃, -, h₃⟩ := estate_bind_ok.1 h₂
    obtain ⟨u, s₄, -, h₄⟩ := estate_bind_ok.1 h₃
    obtain ⟨rfl, -⟩ := estate_pure_ok.1 h₄
    rw [expression, expression, expression_retyped lhs hl, expression_retyped rhs hr]
    rfl
  | .call tag function args, n', s, s', h => by
    obtain ⟨facts, args', rfl, -, heq⟩ := call_retyped (expressions_retyped args) h
    rw [heq, expression, expression]
    rfl
  | .record tag members, n', s, s', h => by
    rw [expression] at h
    obtain ⟨members', s₁, hmembers, h₁⟩ := estate_bind_ok.1 h
    obtain ⟨rfl, -⟩ := estate_pure_ok.1 h₁
    rw [expression, expression, (expressions_retyped members hmembers).2]
    rfl
  | .declaration .., _, _, _, h => (fail_ok.1 h).elim
  | .assignment .., _, _, _, h => (fail_ok.1 h).elim
  | .cond .., _, _, _, h => (fail_ok.1 h).elim
  | .unroll .., _, _, _, h => (fail_ok.1 h).elim

theorem expressions_retyped : ∀ (ns : List Node) {check : Shape → Except SemanticError Unit}
    {ns' : List Node} {s s' : Typing}, expressions check ns s = .ok ns' s' →
    ns'.length = ns.length ∧ ∀ check', expressions check' ns' = expressions check' ns
  | [], check, ns', s, s', h => by
    rw [expressions] at h
    obtain ⟨rfl, -⟩ := estate_pure_ok.1 h
    exact ⟨rfl, fun _ => rfl⟩
  | n :: ns, check, ns', s, s', h => by
    rw [expressions] at h
    obtain ⟨m, s₁, hm, h₁⟩ := estate_bind_ok.1 h
    obtain ⟨sh, s₂, -, h₂⟩ := estate_bind_ok.1 h₁
    obtain ⟨u, s₃, -, h₃⟩ := estate_bind_ok.1 h₂
    obtain ⟨ms, s₄, hms, h₄⟩ := estate_bind_ok.1 h₃
    obtain ⟨rfl, -⟩ := estate_pure_ok.1 h₄
    obtain ⟨hlen, heq⟩ := expressions_retyped ns hms
    refine ⟨by rw [List.length_cons, List.length_cons, hlen], fun check' => ?_⟩
    rw [expressions, expressions, expression_retyped n hm, heq check']

end

theorem pack_eq_record (span : Span) (values : List Node) :
    ∃ tag members, pack span values = .record tag members := by
  unfold pack
  split
  · exact ⟨_, _, rfl⟩
  · exact ⟨_, _, rfl⟩

theorem output_retyped {span : Span} {args args' : List Node}
    (h : output span args s = .ok args' s') :
    args'.length = 2 ∧ output span args' = output span args := by
  obtain ⟨tag, format, values, cs, record, s₁, rfl, -, hrecord, -, rfl, -⟩ := output_cases h
  refine ⟨rfl, ?_⟩
  -- The record of the first run is what the second run packs.
  obtain ⟨recordTag, ms, hpack⟩ := pack_eq_record span values
  have hagain := expression_retyped _ hrecord
  have hself : pack span [record] = record := by
    rw [hpack, expression] at hrecord
    obtain ⟨ms', s₂, -, h₂⟩ := estate_bind_ok.1 hrecord
    obtain ⟨rfl, -⟩ := estate_pure_ok.1 h₂
    rfl
  simp only [output, hself, hagain]

theorem callStatement_retyped {tag : Tag} {function : Name} {args : List Node} {n' : Node}
    (h : callStatement tag function args s = .ok n' s') :
    ∃ tag' args', n' = .call tag' function args' ∧
      callStatement tag' function args' = callStatement tag function args := by
  obtain ⟨b, hname, harity, ⟨args', rfl, houtput, rfl⟩ | ⟨hout, h₁⟩⟩ := callStatement_cases h
  · obtain ⟨hlen, heq⟩ := output_retyped houtput
    have harity' : Builtin.out.arity.accepts args'.length = true := by rw [hlen]; rfl
    refine ⟨_, _, rfl, ?_⟩
    simp only [callStatement, builtin_of_accepts _ hname harity,
      builtin_of_accepts _ hname harity', pure_bind, if_true, heq]
  · obtain ⟨facts, args', rfl, hlen, heq⟩ := call_retyped (expressions_retyped args) h₁
    refine ⟨_, _, rfl, ?_⟩
    unfold callStatement
    rw [hlen]
    simp only [retag, builtin_of_accepts _ hname harity, pure_bind, if_neg hout, heq]

theorem bindValue_retyped {i : Nat} {value value' : Node} {sh : Shape}
    (hsh : value.facts.shape = some sh) (h : bindValue i value s = .ok value' s') :
    value' = value :=
  (bindValue_ok hsh rfl h).1

theorem declaration_retyped {tag : Tag} {target value n' : Node}
    (h : declaration tag target value s = .ok n' s') :
    ∃ target' value', n' = .declaration tag target' value' ∧
      declaration tag target' value' = declaration tag target value := by
  unfold declaration at h
  obtain ⟨value', s₁, hexp, h₁⟩ := estate_bind_ok.1 h
  obtain ⟨sh, s₂, hshape, h₂⟩ := estate_bind_ok.1 h₁
  obtain ⟨hsh, -⟩ := shapeOf_ok.1 hshape
  have hvalue := expression_retyped value hexp
  split at h₂
  · obtain ⟨i, s₃, -, h₃⟩ := estate_bind_ok.1 h₂
    obtain ⟨value'', s₄, hbind, h₄⟩ := estate_bind_ok.1 h₃
    obtain ⟨rfl, -⟩ := estate_pure_ok.1 h₄
    obtain rfl := bindValue_retyped hsh hbind
    refine ⟨_, _, rfl, ?_⟩
    simp only [declaration, hvalue]
  · obtain ⟨keys', s₃, hkeys, h₃⟩ := estate_bind_ok.1 h₂
    obtain ⟨i, s₄, -, h₄⟩ := estate_bind_ok.1 h₃
    obtain ⟨x, s₅, ⟨⟩, h₅⟩ := estate_bind_ok.1 h₄
    have hkeys' := (expressions_retyped _ hkeys).2 notRecord
    split at h₅
    · obtain ⟨u, s₆, -, h₆⟩ := estate_bind_ok.1 h₅
      obtain ⟨rfl, -⟩ := estate_pure_ok.1 h₆
      refine ⟨_, _, rfl, ?_⟩
      simp only [declaration, hvalue, hkeys']
    · obtain ⟨value'', s₆, hbind, h₆⟩ := estate_bind_ok.1 h₅
      obtain ⟨rfl, -⟩ := estate_pure_ok.1 h₆
      obtain rfl := bindValue_retyped hsh hbind
      refine ⟨_, _, rfl, ?_⟩
      simp only [declaration, hvalue, hkeys']
  · exact (fail_ok.1 h₂).elim

theorem assignment_retyped {tag : Tag} {op : ArithOp} {target value n' : Node}
    (h : assignment tag op target value s = .ok n' s') :
    ∃ target' value', n' = .assignment tag op target' value' ∧
      assignment tag op target' value' = assignment tag op target value := by
  unfold assignment at h
  obtain ⟨value', s₁, hexp, h₁⟩ := estate_bind_ok.1 h
  obtain ⟨u, s₂, -, h₂⟩ := estate_bind_ok.1 h₁
  have hvalue := expression_retyped value hexp
  split at h₂
  · obtain ⟨i, s₃, -, h₃⟩ := estate_bind_ok.1 h₂
    obtain ⟨u, s₄, -, h₄⟩ := estate_bind_ok.1 h₃
    obtain ⟨u, s₅, -, h₅⟩ := estate_bind_ok.1 h₄
    obtain ⟨rfl, -⟩ := estate_pure_ok.1 h₅
    refine ⟨_, _, rfl, ?_⟩
    simp only [assignment, hvalue]
  · obtain ⟨keys', s₃, hkeys, h₃⟩ := estate_bind_ok.1 h₂
    obtain ⟨i, s₄, -, h₄⟩ := estate_bind_ok.1 h₃
    obtain ⟨u, s₅, -, h₅⟩ := estate_bind_ok.1 h₄
    obtain ⟨u, s₆, -, h₆⟩ := estate_bind_ok.1 h₅
    obtain ⟨rfl, -⟩ := estate_pure_ok.1 h₆
    refine ⟨_, _, rfl, ?_⟩
    simp only [assignment, hvalue, (expressions_retyped _ hkeys).2 notRecord]
  · exact (fail_ok.1 h₂).elim

theorem statements_retyped {ns ns' : List Node}
    (hns : ∀ n ∈ ns, ∀ (n' : Node) (s s' : Typing), statement n s = .ok n' s' →
      statement n' = statement n)
    (h : statements ns s = .ok ns' s') : statements ns' = statements ns := by
  induction ns generalizing ns' s with
  | nil =>
    rw [statements] at h
    obtain ⟨rfl, -⟩ := estate_pure_ok.1 h
    rfl
  | cons n ns ih =>
    obtain ⟨m, ms, s₁, hm, hms, rfl⟩ := statements_cons_ok h
    rw [statements, statements, hns n List.mem_cons_self m s s₁ hm,
      ih (fun n hn => hns n (List.mem_cons_of_mem _ hn)) hms]

theorem statement_retyped {n : Node} (hn : Statement n) :
    ∀ (n' : Node) (s s' : Typing), statement n s = .ok n' s' → statement n' = statement n := by
  induction hn with
  | declaration _ _ =>
    intro n' s s' h
    rw [statement] at h
    obtain ⟨target', value', rfl, heq⟩ := declaration_retyped h
    rw [statement, statement, heq]
  | assignment _ _ =>
    intro n' s s' h
    rw [statement] at h
    obtain ⟨target', value', rfl, heq⟩ := assignment_retyped h
    rw [statement, statement, heq]
  | cond _ _ _ ihy ihn =>
    intro n' s s' h
    obtain ⟨c, ys, ns, s₁, s₂, hc, -, hys, hns, rfl⟩ := cond_ok h
    rw [statement, statement, expression_retyped _ hc, statements_retyped ihy hys,
      statements_retyped ihn hns]
  | unroll _ ih =>
    intro n' s s' h
    rw [statement] at h
    obtain ⟨body', s₁, hbody, h₁⟩ := estate_bind_ok.1 h
    obtain ⟨rfl, -⟩ := estate_pure_ok.1 h₁
    rw [statement, statement, statements_retyped ih hbody]
  | call _ _ =>
    intro n' s s' h
    rw [statement] at h
    obtain ⟨tag', args', rfl, heq⟩ := callStatement_retyped h
    rw [statement, statement, heq]

end TraceScript.Annotate
