import TraceScript.Proofs.Annotated
import TraceScript.Proofs.Dialogue
import TraceScript.Proofs.Outcomes

namespace TraceScript

open Run

mutual

/-- There is a call of `out` in the tree. -/
def Node.sends : Node → Bool
  | .call _ function args => Builtin.ofName? function == some .out || sendsAny args
  | .declaration _ target value => target.sends || value.sends
  | .assignment _ _ target value => target.sends || value.sends
  | .mapAccess _ _ keys => sendsAny keys
  | .binary _ _ lhs rhs => lhs.sends || rhs.sends
  | .cond _ condition yes no => condition.sends || sendsAny yes || sendsAny no
  | .unroll _ _ body => sendsAny body
  | .record _ members => sendsAny members
  | .var .. | .int .. | .text .. => false

def Node.sendsAny : List Node → Bool
  | [] => false
  | n :: ns => n.sends || sendsAny ns

end

def Probe.sends (p : Probe) : Bool := Node.sendsAny p.body

namespace Annotate

/-- Typing succeeds only for a tree without a call of `out`, and leaves the channel as it is. -/
def Plain {α : Type} (sends : Bool) (m : Annotate α) : Prop :=
  ∀ s a s', m s = .ok a s' → sends = false ∧ s'.table.events = s.table.events

namespace Plain

variable {α β : Type} {b c : Bool}

protected theorem pure (a : α) : Plain false (pure a) := by
  rintro s _ _ ⟨⟩
  exact ⟨rfl, rfl⟩

theorem fail (e : SemanticError) (span : Span) : Plain b (fail e span : Annotate α) := nofun

protected theorem bind {m : Annotate α} {f : α → Annotate β} (hm : Plain b m)
    (hf : ∀ a, Plain c (f a)) : Plain (b || c) (m >>= f) := by
  intro s x s' h
  obtain ⟨a, s₁, h₁, h₂⟩ := estate_bind_ok.1 h
  obtain ⟨rfl, hm'⟩ := hm _ _ _ h₁
  obtain ⟨rfl, hf'⟩ := hf a _ _ _ h₂
  exact ⟨rfl, hf'.trans hm'⟩

theorem andThen {m : Annotate α} {f : α → Annotate β} (hm : Plain b m)
    (hf : ∀ a, Plain false (f a)) : Plain b (m >>= f) :=
  Bool.or_false b ▸ .bind hm hf

theorem table : Plain false table := by
  rintro s _ _ ⟨⟩
  exact ⟨rfl, rfl⟩

theorem symbol (i : Nat) : Plain false (symbol i) := by
  rintro s _ _ ⟨⟩
  exact ⟨rfl, rfl⟩

theorem note (n : Note) : Plain false (note n) := by
  rintro s _ _ ⟨⟩
  exact ⟨rfl, rfl⟩

theorem modifySymbol (i : Nat) (f : Symbol → Symbol) : Plain false (modifySymbol i f) := by
  rintro s _ _ ⟨⟩
  exact ⟨rfl, rfl⟩

theorem declare (n : Note) {add : Table → Nat × Table} (h : ∀ t, (add t).2.events = t.events) :
    Plain false (declare n add) := by
  rintro s _ _ ⟨⟩
  exact ⟨rfl, h s.table⟩

theorem orFail (span : Span) (x : Except SemanticError α) : Plain false (orFail span x) := by
  cases x with
  | ok a => exact .pure a
  | error e => exact .fail e span

theorem shapeOf (n : Node) : Plain false (shapeOf n) := by
  unfold Annotate.shapeOf
  split
  · exact .pure _
  · exact .fail _ _

theorem expectInt (n : Node) : Plain false (expectInt n) := by
  refine .andThen (.shapeOf n) fun found => ?_
  split
  · exact .fail _ _
  · exact .pure _

theorem variableIndex (name : Name) (span : Span) (mayDeclare : Bool) :
    Plain false (variableIndex name span mayDeclare) := by
  refine .andThen .table fun t => ?_
  split
  · refine .andThen (.symbol _) fun x => ?_
    split
    · exact .pure _
    · exact .fail _ _
  · split
    · exact .declare _ fun _ => rfl
    · exact .fail _ _

theorem checkKeySize (name : Name) (keySize : Nat) (span : Span) (i : Nat) :
    Plain false (checkKeySize name keySize span i) := by
  refine .andThen (.symbol i) fun x => ?_
  dsimp only
  split
  · exact .modifySymbol _ _
  · split
    · exact .fail _ _
    · exact .pure _

theorem mapIndex (name : Name) (keySize : Nat) (span : Span) (mayDeclare : Bool) :
    Plain false (mapIndex name keySize span mayDeclare) := by
  have hrest : ∀ i, Plain false (do Annotate.checkKeySize name keySize span i; return i) := fun i =>
    .andThen (.checkKeySize name keySize span i) fun _ => .pure _
  refine .andThen .table fun t => ?_
  split
  · refine .andThen (.symbol _) fun x => ?_
    split
    · exact .andThen (.pure _) hrest
    · exact .andThen (.fail _ _) hrest
  · split
    · exact .andThen (.declare _ fun _ => rfl) hrest
    · exact .andThen (.fail _ _) hrest

theorem declaredShape (i : Nat) (name : Name) (span : Span) :
    Plain false (declaredShape i name span) := by
  refine .andThen (.symbol i) fun x => ?_
  split
  · exact .pure _
  · exact .fail _ _

theorem argIndex (n : Node) : Plain n.sends (argIndex n) := by
  cases n with
  | int tag value =>
    unfold Annotate.argIndex
    dsimp only
    split
    · exact .pure _
    · exact .fail _ _
  | _ => exact .fail _ _

theorem bindValue (i : Nat) (value : Node) : Plain false (bindValue i value) :=
  .andThen (.symbol i) fun _ => .andThen (.orFail _ _) fun _ => .andThen (.modifySymbol _ _) fun _ =>
    .pure _

theorem refine (i : Nat) (map : Name) (shape : Shape) : Plain false (refine i map shape) := by
  refine .andThen (.symbol i) fun x => ?_
  split
  · exact .andThen (.note _) fun _ => .modifySymbol _ _
  · exact .modifySymbol _ _

theorem assumeInt (i : Nat) : Plain false (assumeInt i) := by
  refine .andThen (.symbol i) fun x => ?_
  split
  · exact .andThen (.modifySymbol _ _) fun _ => .note _
  · exact .pure _

theorem expectIntSymbol (i : Nat) (span : Span) : Plain false (expectIntSymbol i span) := by
  refine .andThen (.symbol i) fun x => ?_
  dsimp only
  split
  · exact .fail _ _
  · exact .pure _

end Plain

mutual

theorem plain_expression : ∀ n : Node, Plain n.sends (expression n)
  | .int .. | .text .. => by
    unfold expression
    exact .pure _
  | .var .. => by
    unfold expression
    exact .andThen (.variableIndex _ _ _) fun _ => .andThen (.declaredShape _ _ _) fun _ => .pure _
  | .mapAccess tag map keys => by
    unfold expression
    exact .andThen (plain_expressions _ keys) fun _ => .andThen (.mapIndex _ _ _ _) fun _ =>
      .andThen (.declaredShape _ _ _) fun _ => .pure _
  | .binary tag op lhs rhs => by
    unfold expression
    exact .bind (plain_expression lhs) fun _ => .andThen (plain_expression rhs) fun _ =>
      .andThen (.expectInt _) fun _ => .andThen (.expectInt _) fun _ => .pure _
  | .call tag function args => by
    intro s n' s' h
    unfold expression at h
    obtain ⟨b, s₁, hb, h₁⟩ := estate_bind_ok.1 h
    obtain ⟨rfl, hname, harity⟩ := builtin_ok hb
    have hargs : (Node.call tag function args).sends = (b == .out || Node.sendsAny args) := by
      rw [Node.sends, hname]
      cases b <;> rfl
    have hnil : b.arity = .exactly 0 → Node.sendsAny args = false := by
      intro hzero
      rw [hzero] at harity
      have hempty : args = [] := List.length_eq_zero_iff.1 (by simpa [Arity.accepts] using harity)
      rw [hempty]
      rfl
    rw [hargs]
    cases b with
    | pid | tid | cpu | ns | comm =>
      obtain ⟨args', s₂, hpure, h₂⟩ := estate_bind_ok.1 h₁
      obtain ⟨rfl, rfl⟩ := estate_pure_ok.1 hpure
      obtain ⟨rfl, rfl⟩ := estate_pure_ok.1 h₂
      exact ⟨hnil rfl, rfl⟩
    | arg =>
      have hlen : args.length = 1 := by simpa [Builtin.arity, Arity.accepts] using harity
      obtain ⟨a, rfl⟩ := List.length_eq_one_iff.1 hlen
      obtain ⟨args', s₂, hmap, h₂⟩ := estate_bind_ok.1 h₁
      obtain ⟨rfl, rfl⟩ := estate_pure_ok.1 h₂
      have hone : Plain a.sends (do return [← argIndex a] : Annotate (List Node)) :=
        .andThen (.argIndex a) fun _ => .pure _
      obtain ⟨hsends, hevents⟩ := hone s₁ args' s₂ (by rw [← hmap]; simp)
      exact ⟨by rw [Node.sendsAny, hsends]; rfl, hevents⟩
    | strcmp =>
      obtain ⟨args', s₂, hexps, h₂⟩ := estate_bind_ok.1 h₁
      obtain ⟨rfl, rfl⟩ := estate_pure_ok.1 h₂
      exact plain_expressions _ args _ _ _ hexps
    | out =>
      obtain ⟨args', s₂, -, h₂⟩ := estate_bind_ok.1 h₁
      exact (fail_ok.1 h₂).elim
  | .record tag members => by
    unfold expression
    exact .andThen (plain_expressions _ members) fun _ => .pure _
  | .declaration .. | .assignment .. | .cond .. | .unroll .. => by
    unfold expression
    exact .fail _ _

theorem plain_expressions (check : Shape → Except SemanticError Unit) :
    ∀ ns : List Node, Plain (Node.sendsAny ns) (expressions check ns)
  | [] => by
    unfold expressions
    exact .pure _
  | n :: ns => by
    unfold expressions
    exact .bind (plain_expression n) fun _ => .bind (.shapeOf _) fun _ => .bind (.orFail _ _) fun _ =>
      .andThen (plain_expressions check ns) fun _ => .pure _

end

theorem plain_declaration (tag : Tag) (target value : Node) :
    Plain (target.sends || value.sends) (declaration tag target value) := by
  rw [Bool.or_comm]
  refine .bind (plain_expression value) fun value => .bind (.shapeOf value) fun shape => ?_
  cases target with
  | var t name =>
    exact .andThen (.variableIndex _ _ _) fun _ => .andThen (.bindValue _ _) fun _ => .pure _
  | mapAccess t map keys =>
    refine .andThen (plain_expressions _ keys) fun _ => .andThen (.mapIndex _ _ _ _) fun i =>
      .andThen (.symbol i) fun x => ?_
    dsimp only
    split
    · exact .andThen (.refine _ _ _) fun _ => .andThen (.pure _) fun _ => .pure _
    · exact .andThen (.bindValue _ _) fun _ => .pure _
  | _ => exact .fail _ _

theorem plain_assignment (tag : Tag) (op : ArithOp) (target value : Node) :
    Plain (target.sends || value.sends) (assignment tag op target value) := by
  rw [Bool.or_comm]
  refine .bind (plain_expression value) fun value => .bind (.expectInt value) fun _ => ?_
  cases target with
  | var t name =>
    exact .andThen (.variableIndex _ _ _) fun _ => .andThen (.assumeInt _) fun _ =>
      .andThen (.expectIntSymbol _ _) fun _ => .pure _
  | mapAccess t map keys =>
    exact .andThen (plain_expressions _ keys) fun _ => .andThen (.mapIndex _ _ _ _) fun _ =>
      .andThen (.assumeInt _) fun _ => .andThen (.expectIntSymbol _ _) fun _ => .pure _
  | _ => exact .fail _ _

/-- The channel is requested if there is a call of `out`, and is left as it is otherwise. -/
def Marks {α : Type} (sends : Bool) (m : Annotate α) : Prop :=
  ∀ s a s', m s = .ok a s' →
    s'.table.events = if sends then s.table.events.request else s.table.events

theorem Plain.marks {α : Type} {b : Bool} {m : Annotate α} (h : Plain b m) : Marks b m := by
  intro s a s' hm
  obtain ⟨rfl, hevents⟩ := h s a s' hm
  exact hevents

theorem Marks.bind {α β : Type} {b c : Bool} {m : Annotate α} {f : α → Annotate β} (hm : Marks b m)
    (hf : ∀ a, Marks c (f a)) : Marks (b || c) (m >>= f) := by
  intro s x s' h
  obtain ⟨a, s₁, h₁, h₂⟩ := estate_bind_ok.1 h
  rw [hf a _ _ _ h₂, hm _ _ _ h₁]
  cases b <;> cases c <;> first | rfl | cases s.table.events <;> rfl

theorem Marks.andThen {α β : Type} {b : Bool} {m : Annotate α} {f : α → Annotate β} (hm : Marks b m)
    (hf : ∀ a, Plain false (f a)) : Marks b (m >>= f) :=
  Bool.or_false b ▸ .bind hm fun a => (hf a).marks

theorem marks_callStatement (tag : Tag) (function : Name) (args : List Node) :
    Marks (Node.call tag function args).sends (callStatement tag function args) := by
  intro s n' s' h
  obtain ⟨b, hname, -, ⟨args', rfl, houtput, -⟩ | ⟨-, h₁⟩⟩ := callStatement_cases h
  · have hsends : (Node.call tag function args).sends = true := by
      rw [Node.sends, hname]
      rfl
    obtain ⟨_, _, _, _, _, s₁, -, -, hrecord, -, -, rfl⟩ := output_cases houtput
    rw [hsends, if_pos rfl]
    exact congrArg Channel.request (plain_expression _ _ _ _ hrecord).2
  · exact (plain_expression (.call { tag with facts := {} } function args)).marks _ _ _ h₁

mutual

theorem marks_statement : ∀ n : Node, Marks n.sends (statement n)
  | .declaration tag target value => by
    unfold statement
    exact (plain_declaration tag target value).marks
  | .assignment tag op target value => by
    unfold statement
    exact (plain_assignment tag op target value).marks
  | .cond tag condition yes no => by
    unfold statement
    rw [Node.sends, Bool.or_assoc]
    refine .bind (plain_expression condition).marks fun c => ?_
    rw [← Bool.false_or (_ || _)]
    exact .bind (Plain.expectInt c).marks fun _ => .bind (marks_statements yes) fun _ =>
      .andThen (marks_statements no) fun _ => .pure _
  | .unroll tag count body => by
    unfold statement
    exact .andThen (marks_statements body) fun _ => .pure _
  | .call tag function args => by
    unfold statement
    exact marks_callStatement tag function args
  | .var .. | .mapAccess .. | .int .. | .text .. | .binary .. | .record .. => by
    unfold statement
    exact (plain_expression _).marks

theorem marks_statements : ∀ ns : List Node, Marks (Node.sendsAny ns) (statements ns)
  | [] => by
    unfold statements
    exact (Plain.pure _).marks
  | n :: ns => by
    unfold statements
    exact .bind (marks_statement n) fun _ => .andThen (marks_statements ns) fun _ => .pure _

end

end Annotate

theorem Probe.needsEvents_of_annotate {p p' : Probe} {typing : Typing}
    (h : p.annotate.run {} = .ok p' typing) : typing.table.needsEvents = p.sends := by
  obtain ⟨body, s₁, hbody, h₁⟩ := estate_bind_ok.1 h
  have hevents := Annotate.marks_statements p.body _ _ _ hbody
  cases h₁
  rw [Table.needsEvents, hevents, Probe.sends]
  cases Node.sendsAny p.body <;> rfl

/-- Maps that were asked for and created, in order. -/
def Granted (rs : List MapRequest) (xs : List Exchange) : Prop :=
  List.Forall₂ (fun r x => ∃ id, x = ⟨.createMap r, .ok id⟩) rs xs

/-- Maps that were asked for in order until one was refused. -/
def Refused (rs : List MapRequest) (xs : List Exchange) (e : KernelError) : Prop :=
  ∃ before r after ys, rs = before ++ r :: after ∧ Granted before ys ∧
    xs = ys ++ [⟨.createMap r, .error e⟩]

theorem Granted.append {rs rs' : List MapRequest} {xs xs' : List Exchange} (h : Granted rs xs)
    (h' : Granted rs' xs') : Granted (rs ++ rs') (xs ++ xs') :=
  List.rel_append h h'

theorem exists_granted (rs : List MapRequest) : ∃ xs, Granted rs xs := by
  induction rs with
  | nil => exact ⟨[], .nil⟩
  | cons r rs ih =>
    obtain ⟨xs, hxs⟩ := ih
    exact ⟨_, .cons ⟨default, rfl⟩ hxs⟩

theorem Refused.append_left {rs rs' : List MapRequest} {xs xs' : List Exchange} {e : KernelError}
    (h : Granted rs xs) (h' : Refused rs' xs' e) : Refused (rs ++ rs') (xs ++ xs') e := by
  obtain ⟨before, r, after, ys, rfl, hys, rfl⟩ := h'
  exact ⟨rs ++ before, r, after, xs ++ ys, by simp, h.append hys, by simp⟩

theorem Refused.append_right {rs : List MapRequest} {xs : List Exchange} {e : KernelError}
    (h : Refused rs xs e) (rs' : List MapRequest) : Refused (rs ++ rs') xs e := by
  obtain ⟨before, r, after, ys, rfl, hys, rfl⟩ := h
  exact ⟨before, r, after ++ rs', ys, by simp, hys, rfl⟩

theorem refused_first (r : MapRequest) (rs : List MapRequest) (e : KernelError) :
    Refused (r :: rs) [⟨.createMap r, .error e⟩] e :=
  ⟨[], r, rs, [], rfl, .nil, rfl⟩

namespace Compile

/-- The maps among some symbols. -/
def mapRequests (options : Options) (ss : List Symbol) : List MapRequest :=
  ss.filterMap fun s => s.map.map fun slot =>
    ⟨.hash, slot.keySize, s.facts.size, options.mapEntries⟩

/-- The maps of a probe in the order of their declaration, and its channel if it sends events. -/
def requests (options : Options) (p : Probe) (t : Table) : List MapRequest :=
  mapRequests options t.symbols.toList ++
    if p.sends then [⟨.perfEventArray, 4, 4, options.cpus⟩] else []

/-- All that is said for a probe. -/
inductive Attached (options : Options) (p : Probe) : List Exchange → Prop
  | intro {typed : Probe} {typing : Typing} {maps : List Exchange} (b : Bytecode)
      (h : ProgramHandle) (event : Nat) : p.annotate.run {} = .ok typed typing →
      Granted (requests options p typing.table) maps →
      Attached options p (maps ++ [⟨.loadProgram p.name.value b, .ok h⟩,
        ⟨.traceEvent p.name.value, .ok event⟩, ⟨.attach h event, .ok ()⟩])

/-- What is said for a probe that fails, and the reason. -/
inductive Stopped (options : Options) (p : Probe) : List Exchange → CompileError → Prop
  /-- Nothing is said for a probe without types. -/
  | untyped {e : Located SemanticError} {typing : Typing} : p.annotate.run {} = .error e typing →
      Stopped options p [] (.semantic e)
  /-- Without code, all is said up to the load of the program. -/
  | unbuilt {e : CodeError} {xs more : List Exchange} {b : Bytecode} {h : ProgramHandle} :
      Attached options p (xs ++ ⟨.loadProgram p.name.value b, .ok h⟩ :: more) →
      Stopped options p xs (.code e)
  /-- The call that fails is the last one, and is one that had to be made. -/
  | refused {e : KernelError} {xs more : List Exchange} {c : Call} {r : c.Reply} :
      Attached options p (xs ++ ⟨c, .ok r⟩ :: more) →
      Stopped options p (xs ++ [⟨c, .error e⟩]) (.kernel e)

/-- What is said for some probes, and the reason if it ends before all of them are attached. -/
inductive Protocol (options : Options) : List Probe → List Exchange → Option CompileError → Prop
  | done : Protocol options [] [] none
  | next {p : Probe} {ps : List Probe} {xs ys : List Exchange} {e : Option CompileError} :
      Attached options p xs → Protocol options ps ys e → Protocol options (p :: ps) (xs ++ ys) e
  | stop {p : Probe} {ps : List Probe} {xs : List Exchange} {e : CompileError} :
      Stopped options p xs e → Protocol options (p :: ps) xs (some e)

/-- A compilation says this much in addition, if it succeeds and if it fails. -/
def Follows {σ α : Type} (m : Compile (σ × List Exchange) α) (full : List Exchange → α → Prop)
    (stop : List Exchange → CompileError → Prop) : Prop :=
  ∀ s, match m s with
    | .ok a s' => ∃ xs, s'.kernel.2 = s.kernel.2 ++ xs ∧ full xs a
    | .error e s' => ∃ xs, s'.kernel.2 = s.kernel.2 ++ xs ∧ stop xs e

namespace Follows

variable {σ α β : Type} {full : List Exchange → α → Prop} {full' : List Exchange → β → Prop}
  {stop stop' : List Exchange → CompileError → Prop}

protected theorem pure {a : α} (h : full [] a) :
    Follows (pure a : Compile (σ × List Exchange) α) full stop := fun _ =>
  ⟨[], (List.append_nil _).symm, h⟩

protected theorem bind {m : Compile (σ × List Exchange) α} {f : α → Compile (σ × List Exchange) β}
    (hm : Follows m full stop) (hs : ∀ xs e, stop xs e → stop' xs e)
    (hf : ∀ a xs, full xs a →
      Follows (f a) (fun ys b => full' (xs ++ ys) b) fun ys e => stop' (xs ++ ys) e) :
    Follows (m >>= f) full' stop' := by
  intro s
  have hfirst := hm s
  change match EStateM.bind m f s with | .ok .. => _ | .error .. => _
  unfold EStateM.bind
  cases hrun : m s with
  | error e s₁ =>
    rw [hrun] at hfirst
    obtain ⟨xs, hxs, h⟩ := hfirst
    exact ⟨xs, hxs, hs xs e h⟩
  | ok a s₁ =>
    rw [hrun] at hfirst
    obtain ⟨xs, hxs, h⟩ := hfirst
    have hrest := hf a xs h s₁
    dsimp only
    cases hrun' : f a s₁ <;>
    · rw [hrun'] at hrest
      obtain ⟨ys, hys, h'⟩ := hrest
      exact ⟨xs ++ ys, by rw [hys, hxs, List.append_assoc], h'⟩

theorem pure_bind {a : α} {f : α → Compile (σ × List Exchange) β} (h : Follows (f a) full' stop) :
    Follows (pure a >>= f) full' stop := h

theorem note_bind {n : Note} {m : Unit → Compile (σ × List Exchange) α}
    (h : Follows (m ()) full stop) : Follows (note n >>= m) full stop :=
  fun s => h { s with notes := s.notes.push n }

theorem call (k : Kernel σ) (c : Call) :
    Follows (call k.logged c) (fun xs r => xs = [⟨c, .ok r⟩])
      fun xs e => ∃ e', xs = [⟨c, .error e'⟩] ∧ e = .kernel e' := by
  intro s
  let s' : Session (σ × List Exchange) :=
    ⟨((k.answer c s.kernel.1).state, s.kernel.2 ++ [⟨c, (k.answer c s.kernel.1).result⟩]),
      s.notes ++ (k.answer c s.kernel.1).notes.toArray⟩
  have hcall : Compile.call k.logged c s =
      Compile.orFail .kernel (k.answer c s.kernel.1).result s' := rfl
  rw [hcall]
  cases ha : (k.answer c s.kernel.1).result with
  | ok r => exact ⟨[⟨c, .ok r⟩], by rw [← ha], rfl⟩
  | error e => exact ⟨[⟨c, .error e⟩], by rw [← ha], e, rfl, rfl⟩

theorem annotate (p : Probe) :
    Follows (annotate p : Compile (σ × List Exchange) (Probe × Table))
      (fun xs a => xs = [] ∧ ∃ typing, p.annotate.run {} = .ok a.1 typing ∧ a.2 = typing.table)
      fun xs e => xs = [] ∧ ∃ e' typing, p.annotate.run {} = .error e' typing ∧ e = .semantic e' := by
  intro s
  unfold Compile.annotate
  cases hrun : p.annotate.run {} with
  | ok q typing => exact ⟨[], (List.append_nil _).symm, rfl, typing, rfl, rfl⟩
  | error e typing => exact ⟨[], (List.append_nil _).symm, rfl, e, typing, rfl, rfl⟩

theorem codeOf (options : Options) (t : Table) (p : Probe) :
    Follows (codeOf options t p : Compile (σ × List Exchange) Code) (fun xs _ => xs = [])
      fun xs e => xs = [] ∧ ∃ c, e = .code c := by
  intro s
  obtain ⟨notes, hrun⟩ := codeOf_eq options t p s
  rw [hrun]
  cases codeResult options t p with
  | ok code => exact ⟨[], (List.append_nil _).symm, rfl⟩
  | error c => exact ⟨[], (List.append_nil _).symm, rfl, c, rfl⟩

end Follows

variable {σ : Type}

theorem follows_createMaps (k : Kernel σ) (options : Options) (ss : List Symbol) :
    Follows (createMaps k.logged options ss) (fun xs _ => Granted (mapRequests options ss) xs)
      fun xs e => ∃ e', e = .kernel e' ∧ Refused (mapRequests options ss) xs e' := by
  induction ss with
  | nil => exact .pure .nil
  | cons s ss ih =>
    unfold createMaps
    cases hm : s.map with
    | none =>
      have hrs : mapRequests options (s :: ss) = mapRequests options ss := by
        rw [mapRequests, List.filterMap_cons, hm]
        rfl
      rw [hrs]
      exact .pure_bind (.bind ih (fun _ _ h => h) fun _ xs h => .pure (by rwa [List.append_nil]))
    | some slot =>
      have hrs : mapRequests options (s :: ss) =
          ⟨.hash, slot.keySize, s.facts.size, options.mapEntries⟩ :: mapRequests options ss := by
        rw [mapRequests, List.filterMap_cons, hm]
        rfl
      rw [hrs]
      refine .bind (.call k _) ?_ ?_
      · rintro _ _ ⟨e, rfl, rfl⟩
        exact ⟨e, rfl, refused_first _ _ e⟩
      rintro id _ rfl
      refine .pure_bind (.bind ih ?_ fun _ xs h => .pure ?_)
      · rintro xs _ ⟨e, rfl, h⟩
        have hfirst : Granted [⟨.hash, slot.keySize, s.facts.size, options.mapEntries⟩] _ :=
          .cons ⟨id, rfl⟩ .nil
        exact ⟨e, rfl, .append_left hfirst h⟩
      · rw [List.append_nil]
        exact .cons ⟨id, rfl⟩ h

theorem follows_bindTable (k : Kernel σ) (options : Options) {p typed : Probe} {typing : Typing}
    (h : p.annotate.run {} = .ok typed typing) :
    Follows (bindTable k.logged options typing.table)
      (fun xs _ => Granted (requests options p typing.table) xs)
      fun xs e => ∃ e', e = .kernel e' ∧ Refused (requests options p typing.table) xs e' := by
  have hneeds : ∀ symbols, ({ typing.table with symbols } : Table).needsEvents = p.sends := fun _ =>
    Probe.needsEvents_of_annotate h
  refine .bind (follows_createMaps k options _) ?_ fun symbols xs hxs => ?_
  · rintro xs _ ⟨e, rfl, hrefused⟩
    exact ⟨e, rfl, hrefused.append_right _⟩
  dsimp only
  rw [hneeds, requests]
  cases p.sends with
  | false => exact .pure (hxs.append .nil)
  | true =>
    refine .bind (.call k _) ?_ ?_
    · rintro _ _ ⟨e, rfl, rfl⟩
      exact ⟨e, rfl, .append_left hxs (refused_first _ _ e)⟩
    · rintro id _ rfl
      exact .pure (hxs.append (.cons ⟨id, rfl⟩ .nil))

theorem stopped_of_refused {options : Options} {p typed : Probe} {typing : Typing}
    (h : p.annotate.run {} = .ok typed typing) {xs : List Exchange} {e : KernelError}
    (hr : Refused (requests options p typing.table) xs e) : Stopped options p xs (.kernel e) := by
  obtain ⟨before, r, after, ys, hrs, hys, rfl⟩ := hr
  obtain ⟨zs, hzs⟩ := exists_granted after
  have hall : Granted (requests options p typing.table)
      (ys ++ ⟨.createMap r, .ok default⟩ :: zs) := by
    rw [hrs]
    exact hys.append (.cons ⟨default, rfl⟩ hzs)
  have hattached := Attached.intro default default default h hall
  rw [List.append_assoc] at hattached
  exact .refused hattached

theorem follows_probe (k : Kernel σ) (options : Options) (p : Probe) :
    Follows (probe k.logged options p) (fun xs _ => Attached options p xs)
      fun xs e => Stopped options p xs e := by
  refine .note_bind (.bind (.annotate p) ?_ ?_)
  · rintro _ _ ⟨rfl, e, typing, hrun, rfl⟩
    exact .untyped hrun
  rintro ⟨typed, t⟩ _ ⟨rfl, typing, hrun, rfl⟩
  refine .note_bind (.bind (follows_bindTable k options hrun) ?_ fun bound maps hmaps => ?_)
  · rintro xs _ ⟨e, rfl, hrefused⟩
    exact stopped_of_refused hrun hrefused
  have hfull := fun (b : Bytecode) (h : ProgramHandle) (event : Nat) =>
    Attached.intro b h event hrun hmaps
  refine .bind (.codeOf options bound typed) ?_ ?_
  · rintro _ _ ⟨rfl, c, rfl⟩
    rw [List.nil_append, List.append_nil]
    exact .unbuilt (hfull default default default)
  rintro code _ rfl
  refine .bind (.call k _) ?_ ?_
  · rintro _ _ ⟨e, rfl, rfl⟩
    exact .refused (hfull code.bytecode default default)
  rintro h _ rfl
  refine .bind (.call k _) ?_ ?_
  · rintro _ _ ⟨e, rfl, rfl⟩
    have hevent := hfull code.bytecode h default
    rw [List.append_cons] at hevent
    simpa using Stopped.refused (e := e) hevent
  rintro event _ rfl
  refine .bind (.call k _) ?_ ?_
  · rintro _ _ ⟨e, rfl, rfl⟩
    have hattach := hfull code.bytecode h event
    rw [List.append_cons, List.append_cons] at hattach
    simpa using Stopped.refused (e := e) hattach
  rintro ⟨⟩ _ rfl
  exact .note_bind (.pure (by simpa using hfull code.bytecode h event))

theorem follows_probes (k : Kernel σ) (options : Options) (ps : List Probe) :
    Follows (probes k.logged options ps) (fun xs _ => Protocol options ps xs none)
      fun xs e => Protocol options ps xs (some e) := by
  induction ps with
  | nil => exact .pure .done
  | cons p ps ih =>
    refine .bind (follows_probe k options p) (fun _ _ h => .stop h) fun _ xs hxs => ?_
    refine .bind ih (fun _ _ h => .next hxs h) fun _ ys hys => .pure ?_
    rw [List.append_nil]
    exact .next hxs hys

/-- The result of a script with a kernel in some state, and all that was said. -/
def talk (k : Kernel σ) (options : Options) (source : Source) (state : σ) :
    Except CompileError (List CompiledProbe) × List Exchange :=
  match (script k.logged options source).run ⟨(state, []), #[]⟩ with
  | .ok compiled s => (.ok compiled, s.kernel.2)
  | .error e s => (.error e, s.kernel.2)

theorem talk_eq (options : Options) (source : Source) : ∃ d : Dialogue (List CompiledProbe),
    ∀ (σ : Type) (k : Kernel σ) (state : σ),
      talk k options source state = ((d.run k state).result, (d.run k state).exchanges) := by
  obtain ⟨d, hd⟩ := spoken_script options source
  refine ⟨d, fun σ k state => ?_⟩
  obtain ⟨notes, hrun⟩ := hd _ k.logged ⟨(state, []), #[]⟩
  obtain ⟨hresult, hstate⟩ := d.run_logged k state []
  unfold talk
  have hscript : (script k.logged options source).run ⟨(state, []), #[]⟩ = _ := hrun
  rw [hscript, Outcome.ending, hresult, hstate]
  cases (d.run k state).result <;> rfl

/-- A kernel is asked for the maps, the channel, the program, the event and the attachment of each
probe in turn, and nothing after a failure. A call that is made to fail changes no call before it. -/
theorem talk_follows_protocol (k : Kernel σ) (options : Options) (source : Source) (state : σ) :
    (∀ e, parseScript source = .error e → talk k options source state = (.error e, [])) ∧
    (∀ ps, parseScript source = .ok ps →
      match talk k options source state with
      | (.ok _, xs) => Protocol options ps xs none
      | (.error e, xs) => Protocol options ps xs (some e)) ∧
    ∀ (n : Nat) (e : KernelError), n < (talk k options source state).2.length →
      ∃ xs, talk (k.failingAt n e) options source (state, 0) = (.error (.kernel e), xs) ∧
        xs.map Exchange.call = ((talk k options source state).2.map Exchange.call).take (n + 1) := by
  refine ⟨fun e he => ?_, fun ps hps => ?_, fun n e hn => ?_⟩
  · unfold talk script
    rw [he]
    rfl
  · let s₀ : Session (σ × List Exchange) :=
      ⟨(state, []), #[Note.scriptParsed source.name ps.length]⟩
    have hscript : (script k.logged options source).run ⟨(state, []), #[]⟩ =
        probes k.logged options ps s₀ := by
      unfold script
      rw [hps]
      rfl
    have hfollows := follows_probes k options ps s₀
    unfold talk
    rw [hscript]
    cases hrun : probes k.logged options ps s₀ <;>
    · rw [hrun] at hfollows
      obtain ⟨xs, hxs, h⟩ := hfollows
      dsimp only
      rw [hxs]
      exact h
  · obtain ⟨d, hd⟩ := talk_eq options source
    rw [hd σ k state] at hn ⊢
    obtain ⟨hcalls, hresult⟩ := d.run_failingAt k e state 0 n hn
    rw [Nat.zero_add] at hcalls hresult
    exact ⟨_, by rw [hd, hresult], hcalls⟩

/-- A probe with a map and a channel. -/
def countedEvents : Source where
  name := "counted"
  lines := ["probe p \x7b x[pid()] += 1; if (cpu()) \x7b out(\"%d\", x[pid()]); \x7d \x7d"]

/-- Without processors the channel is refused, after the map. If the map fails, no channel is asked
for. -/
theorem countedEvents_talk :
    (∃ ps e, parseScript countedEvents = .ok ps ∧
      (talk DryRun.kernel { cpus := 0 } countedEvents {}).1 = .error e ∧
      Protocol { cpus := 0 } ps (talk DryRun.kernel { cpus := 0 } countedEvents {}).2 (some e)) ∧
    (talk DryRun.kernel { cpus := 0 } countedEvents {}).2.map Exchange.call =
      [.createMap ⟨.hash, 8, 8, 1024⟩, .createMap ⟨.perfEventArray, 4, 4, 0⟩] ∧
    (∃ xs, talk (DryRun.kernel.failingAt 0 (.attach 7)) { cpus := 0 } countedEvents ({}, 0) =
        (.error (.kernel (.attach 7)), xs) ∧
      xs.map Exchange.call = [.createMap ⟨.hash, 8, 8, 1024⟩]) ∧
    ∃ e, parseScript ⟨"open", ["probe p \x7b"]⟩ = .error e ∧
      talk DryRun.kernel {} ⟨"open", ["probe p \x7b"]⟩ {} = (.error e, []) := by
  have hcalls : (talk DryRun.kernel { cpus := 0 } countedEvents {}).2.map Exchange.call =
      [.createMap ⟨.hash, 8, 8, 1024⟩, .createMap ⟨.perfEventArray, 4, 4, 0⟩] := by
    conv => lhs; cbv
  have herror : (talk DryRun.kernel { cpus := 0 } countedEvents {}).1 =
      .error (.kernel (.mapCreation .perfEventArray 4 4)) := by
    conv => lhs; cbv
  have hparse : ∃ ps, parseScript countedEvents = .ok ps := ⟨_, by conv => lhs; cbv⟩
  have hopen : ∃ e, parseScript ⟨"open", ["probe p \x7b"]⟩ = .error e := ⟨_, by conv => lhs; cbv⟩
  obtain ⟨ps, hps⟩ := hparse
  obtain ⟨e, he⟩ := hopen
  obtain ⟨-, hprotocol, hfail⟩ :=
    talk_follows_protocol DryRun.kernel { cpus := 0 } countedEvents {}
  refine ⟨⟨ps, _, hps, herror, ?_⟩, hcalls, ?_, e, he, ?_⟩
  · have h := hprotocol ps hps
    generalize talk DryRun.kernel { cpus := 0 } countedEvents {} = r at h herror ⊢
    obtain ⟨result, xs⟩ := r
    subst herror
    exact h
  · have hlength : 0 < (talk DryRun.kernel { cpus := 0 } countedEvents {}).2.length := by
      rw [← List.length_map (f := Exchange.call), hcalls]
      decide
    have h := hfail 0 (.attach 7) hlength
    rw [hcalls] at h
    exact h
  · exact (talk_follows_protocol DryRun.kernel {} ⟨"open", ["probe p \x7b"]⟩ {}).1 e he

end Compile

end TraceScript
