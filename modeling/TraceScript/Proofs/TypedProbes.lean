import TraceScript.Proofs.Reannotated

namespace TraceScript

open Run

namespace Annotate

/-- The result of typing a statement is typed over the table that is left. -/
def TypesStatement (f : Annotate Node) : Prop :=
  ∀ (s s' : Typing) (n : Node), s.table.Stacked → f s = .ok n s' → TypedStatement s'.table n

theorem typedTarget_mapAccess {t' : Table} {place : Tag} {map : Name} {keys keys' : List Node}
    {s s' : Typing} {i : Nat} {sym : Symbol} {slot : MapSlot} {sh : Shape}
    (htarget : Place (.mapAccess place map keys)) (hs : s.table.Sound)
    (hexps : expressions notRecord keys s = .ok keys' s') (hg : s.table.Grows t')
    (hn : t'.Names map i sym) (hm : sym.map = some slot) (hk : slot.keySize = packedSize keys')
    (hpos : 0 < packedSize keys') :
    TypedTarget t' sh sym (.mapAccess { place with facts := .ofShape sh .stack } map keys') := by
  cases htarget with
  | mapAccess _ hne hkeys =>
    obtain ⟨-, hlen, hall⟩ :=
      expressions_ok (fun k hk => types_of_expression (hkeys k hk)) hs hexps
    exact .mapAccess hn hm (by omega) (ne_nil_of_length_eq hlen hne)
      (fun k hk => (hall k hk).1.mono hg) (by omega) rfl

theorem declaration_types {tag : Tag} {target value : Node} (htarget : Place target)
    (hvalue : Expression value) : TypesStatement (declaration tag target value) := by
  intro s s' n hs h
  obtain ⟨value', sh, i, sym, hexp, hsh, hset, hsh', hcase⟩ := declaration_ok htarget hvalue hs h
  obtain ⟨-, htv⟩ := types_of_expression hvalue _ _ _ hs.toSound hexp
  rcases hcase with ⟨place, name, rfl, hw, hm, rfl⟩ |
    ⟨place, map, keys, keys', slot, rfl, hexps, hpos, hw, hm, hk, rfl⟩
  · exact .declaration (.var hw.updates.names hm rfl) hset hsh' (htv.mono hw.updates.grows) hsh
  · have hg := hw.updates.grows
    exact .declaration (typedTarget_mapAccess htarget hs.toSound hexps hg hw.updates.names hm hk hpos)
      hset hsh' (htv.mono hg) hsh

theorem assignment_types {tag : Tag} {op : ArithOp} {target value : Node} (htarget : Place target)
    (hvalue : Expression value) : TypesStatement (assignment tag op target value) := by
  intro s s' n hs h
  obtain ⟨value', i, sym, hexp, hexpect, hsh', hcase⟩ := assignment_ok htarget hs h
  obtain ⟨-, htv⟩ := types_of_expression hvalue _ _ _ hs.toSound hexp
  obtain ⟨hsh, -⟩ := expectInt_ok hexpect
  rcases hcase with ⟨place, name, rfl, rfl, hn, hm, rfl⟩ |
    ⟨place, map, keys, keys', slot, rfl, hexps, hpos, hw, hm, hk, -, rfl⟩
  · exact .assignment (.var hn hm rfl) (fun _ => hsh') htv hsh
  · have hg := hw.updates.grows
    exact .assignment (typedTarget_mapAccess htarget hs.toSound hexps hg hw.updates.names hm hk hpos)
      (fun _ => hsh') (htv.mono hg) hsh

theorem pack_expressions (span : Span) {values : List Node} (h : ∀ v ∈ values, Expression v) :
    ∃ tag : Tag, tag.facts = {} ∧ pack span values = .record tag values := by
  unfold pack
  split
  · cases h _ List.mem_cons_self
  · exact ⟨_, rfl, rfl⟩

theorem output_ok {span : Span} {args args' : List Node} {s s' : Typing}
    (hargs : ∀ a ∈ args, Expression a) (ht : s.table.Sound)
    (h : output span args s = .ok args' s') :
    s'.table = s.table.requestEvents ∧ ∃ formatTag recordTag format members cs,
      args' = [.text formatTag format, .record recordTag members] ∧ formatTag.facts = {} ∧
      conversions format = .ok cs ∧ Accepts cs members ∧
      (∀ m ∈ members, Typed s.table m) ∧
      recordTag.facts = .ofShape ⟨.record, max (packedSize members) 8⟩ .stack ∧
      ∃ values, (∀ v ∈ values, v ∈ args) ∧
        expressions (fun _ => .ok ()) values s = .ok members s := by
  obtain ⟨tag, format, values, cs, record, s₁, rfl, hcs, hrecord, hacc, rfl, rfl⟩ := output_cases h
  have hvalues := fun v hv => hargs v (List.mem_cons_of_mem _ hv)
  obtain ⟨rtag, hfacts, hpack⟩ := pack_expressions span hvalues
  rw [hpack, expression] at hrecord
  obtain ⟨ms, s₂, hms, hpure⟩ := estate_bind_ok.1 hrecord
  obtain ⟨rfl, -, hall⟩ := expressions_ok (fun v hv => types_of_expression (hvalues v hv)) ht hms
  obtain ⟨rfl, rfl⟩ := estate_pure_ok.1 hpure
  have hff : tag.facts = {} := by
    cases hargs _ List.mem_cons_self with
    | text hff => exact hff
  exact ⟨rfl, tag, _, format, ms, cs, rfl, hff, hcs, hacc, fun m hm => (hall m hm).1,
    retag_facts hfacts _ _, values, fun v hv => List.mem_cons_of_mem _ hv, hms⟩

theorem callStatement_types {tag : Tag} {function : Name} {args : List Node}
    (hargs : ∀ a ∈ args, Expression a) : TypesStatement (callStatement tag function args) := by
  intro s s' n hs h
  obtain ⟨b, hname, -, ⟨args', rfl, houtput, rfl⟩ | ⟨-, h₁⟩⟩ := callStatement_cases h
  · obtain ⟨htable, ftag, rtag, format, ms, cs, rfl, hff, hcs, hacc, hms, hr, -⟩ :=
      output_ok hargs hs.toSound houtput
    rw [htable]
    exact .out hname rfl hff hcs hacc (fun m hm => (hms m hm).mono s.table.grows_requestEvents)
      hr s.table.needsEvents_requestEvents
  · obtain ⟨rfl, htyped, _, _, rfl⟩ :=
      call_ok rfl (fun a ha => types_of_expression (hargs a ha)) hs.toSound h₁
    exact .call htyped

theorem statements_typed {ns ns' : List Node} (hns : ∀ n ∈ ns, Statement n)
    (htypes : ∀ n ∈ ns, TypesStatement (statement n)) {s s' : Typing} (hs : s.table.Stacked)
    (h : statements ns s = .ok ns' s') : ∀ n ∈ ns', TypedStatement s'.table n := by
  induction ns generalizing ns' s with
  | nil =>
    rw [statements] at h
    obtain ⟨rfl, rfl⟩ := estate_pure_ok.1 h
    exact fun n hn => (List.not_mem_nil hn).elim
  | cons n ns ih =>
    obtain ⟨hn, hns⟩ := List.forall_mem_cons.1 hns
    obtain ⟨hty, htypes⟩ := List.forall_mem_cons.1 htypes
    obtain ⟨m, ms, s₁, hm, hms, rfl⟩ := statements_cons_ok h
    have hs₁ := (statement_retraces hn _ _ _ hs hm).1.stacked
    have hg := (statements_step hns hs₁ hms).grows
    exact List.forall_mem_cons.2 ⟨(hty _ _ _ hs hm).mono hg, ih hns htypes hs₁ hms⟩

theorem types_of_statement {n : Node} (h : Statement n) : TypesStatement (statement n) := by
  induction h with
  | declaration htarget hvalue =>
    rw [statement]
    exact declaration_types htarget hvalue
  | assignment htarget hvalue =>
    rw [statement]
    exact assignment_types htarget hvalue
  | call _ hargs =>
    rw [statement]
    exact callStatement_types hargs
  | cond hc hyes hno ihy ihn =>
    intro s s' n' hs h
    obtain ⟨c, ys, ns, s₁, s₂, hexp, hint, hys, hns, rfl⟩ := cond_ok h
    obtain ⟨rfl, hct⟩ := types_of_expression hc _ _ _ hs.toSound hexp
    have hstep := statements_step hyes hs hys
    have hg := (statements_step hno hstep.stacked hns).grows
    exact .cond (hct.mono (hstep.grows.trans hg)) hint
      (fun k hk => (statements_typed hyes ihy hs hys k hk).mono hg)
      (statements_typed hno ihn hstep.stacked hns)
  | unroll hbody ih =>
    intro s s' n' hs h
    rw [statement] at h
    obtain ⟨body, s₁, hrun, h₁⟩ := estate_bind_ok.1 h
    obtain ⟨rfl, rfl⟩ := estate_pure_ok.1 h₁
    exact .unroll (statements_typed hbody ih hs hrun)

end Annotate

/-- A parsed probe that is accepted is typed over the table that typing ends with. -/
theorem Probe.annotate_typed {p p' : Probe} {s : Typing} (hp : ∀ n ∈ p.body, Statement n)
    (h : p.annotate {} = .ok p' s) :
    s.table.Sound ∧ p'.name = p.name ∧ ∀ n ∈ p'.body, TypedStatement s.table n := by
  obtain ⟨body, s₁, hbody, rfl, rfl⟩ := annotate_eq_ok.1 h
  have htyped := Annotate.statements_typed hp
    (fun n hn => Annotate.types_of_statement (hp n hn)) Table.stacked_empty hbody
  exact ⟨(Annotate.statements_step hp Table.stacked_empty hbody).stacked.toSound, rfl, htyped⟩

end TraceScript
