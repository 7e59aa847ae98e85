import TraceScript.Script.Typing

namespace TraceScript

/-- Other names with the same letters, other places, and other descriptors. -/
structure Relabeling where
  name : Name → Name
  span : Span → Span
  map : MapId → MapId
  folded : ∀ n, (name n).folded = n.folded
  join : ∀ a b, span (a.join b) = (span a).join (span b)

theorem Span.join_id (a b : Span) : id (a.join b) = (id a).join (id b) := rfl

namespace Relabeling

variable (r : Relabeling)

/-- The other names alone. -/
def names : Relabeling := ⟨r.name, id, id, r.folded, Span.join_id⟩

theorem same_name (a b : Name) : (r.name a).same (r.name b) = a.same b := by
  rw [Name.same, Name.same, r.folded, r.folded]

theorem name_default : r.name default = default := by
  have hfolded : (r.name default).text.toList.map Char.toLower = [] := r.folded default
  have htext : (r.name default).text = "" := String.toList_eq_nil_iff.1 (List.map_eq_nil_iff.1 hfolded)
  calc
    r.name default = ⟨(r.name default).text⟩ := rfl
    _ = default := congrArg Name.mk htext

theorem ofName?_name (n : Name) : Builtin.ofName? (r.name n) = Builtin.ofName? n := by
  unfold Builtin.ofName? Name.same
  rw [r.folded]

end Relabeling

variable (r : Relabeling)

def Tag.relabel (t : Tag) : Tag :=
  { span := r.span t.span, facts := { t.facts with map := t.facts.map.map r.map } }

namespace Node

mutual

def relabel : Node → Node
  | .declaration t target value => .declaration (t.relabel r) target.relabel value.relabel
  | .assignment t op target value => .assignment (t.relabel r) op target.relabel value.relabel
  | .var t name => .var (t.relabel r) (r.name name)
  | .mapAccess t map keys => .mapAccess (t.relabel r) (r.name map) (relabelAll keys)
  | .int t value => .int (t.relabel r) value
  | .text t value => .text (t.relabel r) value
  | .call t function args => .call (t.relabel r) (r.name function) (relabelAll args)
  | .binary t op lhs rhs => .binary (t.relabel r) op lhs.relabel rhs.relabel
  | .cond t condition yes no =>
    .cond (t.relabel r) condition.relabel (relabelAll yes) (relabelAll no)
  | .unroll t count body => .unroll (t.relabel r) count (relabelAll body)
  | .record t members => .record (t.relabel r) (relabelAll members)

def relabelAll : List Node → List Node
  | [] => []
  | n :: ns => n.relabel :: relabelAll ns

end

theorem relabelAll_eq (ns : List Node) : relabelAll r ns = ns.map (relabel r) := by
  induction ns with
  | nil => rfl
  | cons n ns ih => rw [relabelAll, ih, List.map_cons]

theorem tag_relabel (n : Node) : (n.relabel r).tag = n.tag.relabel r := by
  cases n <;> rfl

theorem relabel_withTag (t : Tag) (n : Node) :
    (n.withTag t).relabel r = (n.relabel r).withTag (t.relabel r) := by
  cases n <;> rfl

theorem span_relabel (n : Node) : (n.relabel r).span = r.span n.span := by
  rw [span, tag_relabel]
  rfl

theorem facts_relabel (n : Node) :
    (n.relabel r).facts = { n.facts with map := n.facts.map.map r.map } := by
  rw [facts, tag_relabel]
  rfl

theorem packedSize_relabel (n : Node) : (n.relabel r).packedSize = n.packedSize := by
  rw [packedSize, packedSize, facts_relabel]

theorem relabel_mapAccess (t : Tag) (map : Name) (keys : List Node) :
    (mapAccess t map keys).relabel r =
      mapAccess (t.relabel r) (r.name map) (keys.map (relabel r)) :=
  congrArg (mapAccess _ _) (relabelAll_eq r keys)

theorem relabel_call (t : Tag) (function : Name) (args : List Node) :
    (call t function args).relabel r =
      call (t.relabel r) (r.name function) (args.map (relabel r)) :=
  congrArg (call _ _) (relabelAll_eq r args)

theorem relabel_record (t : Tag) (members : List Node) :
    (record t members).relabel r = record (t.relabel r) (members.map (relabel r)) :=
  congrArg (record _) (relabelAll_eq r members)

theorem relabel_cond (t : Tag) (condition : Node) (yes no : List Node) :
    (cond t condition yes no).relabel r =
      cond (t.relabel r) (condition.relabel r) (yes.map (relabel r)) (no.map (relabel r)) :=
  congr (congrArg (cond _ _) (relabelAll_eq r yes)) (relabelAll_eq r no)

theorem relabel_unroll (t : Tag) (count : Nat) (body : List Node) :
    (unroll t count body).relabel r = unroll (t.relabel r) count (body.map (relabel r)) :=
  congrArg (unroll _ _) (relabelAll_eq r body)

end Node

/-- The name of a probe is no name of the script: it tells the kernel where the probe belongs. -/
def Probe.relabel (p : Probe) : Probe :=
  ⟨⟨p.name.value, r.span p.name.span⟩, p.body.map (Node.relabel r)⟩

def Symbol.relabel (s : Symbol) : Symbol :=
  { s with
    name := r.name s.name
    map := s.map.map fun slot => { slot with id := slot.id.map r.map } }

theorem Symbol.facts_relabel (s : Symbol) : (s.relabel r).facts = s.facts := rfl

theorem Symbol.relabel_default : (default : Symbol).relabel r = default := by
  have hname := r.name_default
  unfold relabel
  rw [show (default : Symbol).name = default from rfl, hname]
  rfl

def Channel.relabel : Channel → Channel
  | bound id => bound (r.map id)
  | c => c

def Table.relabel (t : Table) : Table :=
  { t with symbols := t.symbols.map (Symbol.relabel r), events := t.events.relabel r }

namespace Table

variable (t : Table)

theorem lookup_relabel (name : Name) : (t.relabel r).lookup (r.name name) = t.lookup name := by
  have hsame : (fun s : Symbol => s.name.same (r.name name)) ∘ Symbol.relabel r =
      fun s => s.name.same name := funext fun s => r.same_name s.name name
  rw [lookup, relabel, Array.findIdx?_map, hsame, lookup]

theorem getD_relabel (i : Nat) :
    (t.relabel r).symbols.getD i default = (t.symbols.getD i default).relabel r := by
  rw [Array.getD_eq_getD_getElem?, Array.getD_eq_getD_getElem?, relabel, Array.getElem?_map]
  cases t.symbols[i]? with
  | none => exact (Symbol.relabel_default r).symm
  | some s => rfl

theorem modify_relabel (i : Nat) {g g' : Symbol → Symbol}
    (hg : ∀ s, g' (s.relabel r) = (g s).relabel r) :
    (t.relabel r).modify i g' = (t.modify i g).relabel r := by
  have hsymbols : (t.symbols.map (Symbol.relabel r)).modify i g' =
      (t.symbols.modify i g).map (Symbol.relabel r) := by
    refine Array.ext_getElem? fun j => ?_
    rw [Array.getElem?_modify, Array.getElem?_map, Array.getElem?_map, Array.getElem?_modify]
    split
    · cases t.symbols[j]? with
      | none => rfl
      | some s => exact congrArg some (hg s)
    · rfl
  rw [modify, modify, relabel, relabel, hsymbols]

theorem push_relabel (s : Symbol) :
    (t.relabel r).push (s.relabel r) = ((t.push s).1, (t.push s).2.relabel r) := by
  rw [push, relabel, Array.size_map, ← Array.map_push]
  rfl

theorem requestEvents_relabel : (t.relabel r).requestEvents = t.requestEvents.relabel r := by
  unfold requestEvents relabel
  cases t.events <;> rfl

theorem needsEvents_relabel : (t.relabel r).needsEvents = t.needsEvents := by
  unfold needsEvents relabel
  cases t.events <;> rfl

end Table

def SemanticError.relabel : SemanticError → SemanticError
  | undeclaredSymbol name => undeclaredSymbol (r.name name)
  | keySizeMismatch map expected found => keySizeMismatch (r.name map) expected found
  | unknownFunction name => unknownFunction (r.name name)
  | expectedMap name => expectedMap (r.name name)
  | expectedVariable name => expectedVariable (r.name name)
  | e => e

def Note.relabel : Note → Note
  | declaredVariable name => declaredVariable (r.name name)
  | declaredMap name keySize => declaredMap (r.name name) keySize
  | provisionalValue map => provisionalValue (r.name map)
  | refinedValue map shape => refinedValue (r.name map) shape
  | n => n

/-- No symbol has a descriptor yet when a probe is typed. -/
def Typing.relabel (s : Typing) : Typing :=
  ⟨s.table.relabel r.names, s.notes.map (Note.relabel r)⟩

theorem Facts.unify_relabel (left right : Facts) :
    left.unify { right with map := right.map.map r.map } =
      (left.unify right).map fun x => (x.1, { x.2 with map := x.2.map.map r.map }) := by
  have hshape : ({ right with map := right.map.map r.map } : Facts).shape = right.shape := rfl
  rw [unify, unify, hshape]
  cases left.shape with
  | none => cases right.shape <;> rfl
  | some shape =>
    cases right.shape with
    | none => rfl
    | some found =>
      dsimp only
      split <;> rfl

theorem Facts.unify_error {left right : Facts} {e : SemanticError} (h : left.unify right = .error e) :
    e.relabel r = e := by
  unfold unify at h
  split at h
  · split at h
    · cases h
    · cases h
      rfl
  all_goals cases h

namespace Annotate

/-- How an action ends, relabeled. -/
def relabelResult {α β : Type} (h : α → β) :
    EStateM.Result (Located SemanticError) Typing α → EStateM.Result (Located SemanticError) Typing β
  | .ok a s => .ok (h a) (s.relabel r)
  | .error e s => .error ⟨e.value.relabel r, r.span e.span⟩ (s.relabel r)

/-- From relabeled symbols the second action ends as the first does, relabeled. -/
structure Commutes {α β : Type} (h : α → β) (m : Annotate α) (m' : Annotate β) : Prop where
  run : ∀ s : Typing, m' (s.relabel r) = relabelResult r h (m s)

variable {r}

namespace Commutes

variable {α β γ δ : Type} {h : α → β} {h' : γ → δ}

protected theorem pure (a : α) : Commutes r h (pure a) (pure (h a)) := ⟨fun _ => rfl⟩

theorem done {a : α} {b : β} (hb : b = h a) : Commutes r h (pure a) (pure b) := hb ▸ .pure a

theorem fail {e e' : SemanticError} {span span' : Span} (he : e' = e.relabel r)
    (hspan : span' = r.span span) : Commutes r h (fail e span) (fail e' span') := by
  subst he hspan
  exact ⟨fun _ => rfl⟩

protected theorem bind {m : Annotate α} {m' : Annotate β} {f : α → Annotate γ} {f' : β → Annotate δ}
    (hm : Commutes r h m m') (hf : ∀ a, Commutes r h' (f a) (f' (h a))) :
    Commutes r h' (m >>= f) (m' >>= f') := by
  refine ⟨fun s => ?_⟩
  change EStateM.bind m' f' (s.relabel r) = relabelResult r h' (EStateM.bind m f s)
  unfold EStateM.bind
  rw [hm.run]
  cases m s with
  | ok a s => exact (hf a).run s
  | error e s => rfl

theorem note (n : Note) : Commutes r id (note n) (note (n.relabel r)) := by
  refine ⟨fun s => ?_⟩
  have hnotes : (s.notes.map (Note.relabel r)).push (n.relabel r) =
      (s.notes.push n).map (Note.relabel r) := Array.map_push.symm
  exact congrArg (fun notes => EStateM.Result.ok () (Typing.mk _ notes)) hnotes

theorem table : Commutes r (Table.relabel r.names) table table := ⟨fun _ => rfl⟩

theorem modifyTable {g g' : Table → Table}
    (hg : ∀ t, g' (t.relabel r.names) = (g t).relabel r.names) :
    Commutes r id (modifyTable g) (modifyTable g') :=
  ⟨fun s => congrArg (fun t => EStateM.Result.ok () (Typing.mk t _)) (hg s.table)⟩

theorem modifySymbol (i : Nat) {g g' : Symbol → Symbol}
    (hg : ∀ s, g' (s.relabel r.names) = (g s).relabel r.names) :
    Commutes r id (modifySymbol i g) (modifySymbol i g') :=
  .modifyTable fun t => t.modify_relabel r.names i hg

theorem symbol (i : Nat) : Commutes r (Symbol.relabel r.names) (symbol i) (symbol i) :=
  .bind .table fun t => .done (t.getD_relabel r.names i)

theorem declare (n : Note) {add add' : Table → Nat × Table}
    (hadd : ∀ t, add' (t.relabel r.names) = ((add t).1, (add t).2.relabel r.names)) :
    Commutes r id (declare n add) (declare (n.relabel r) add') := by
  refine .bind (.note n) fun _ => .bind .table fun t => ?_
  rw [hadd]
  exact .bind (.modifyTable fun _ => rfl) fun _ => .pure _

theorem orFail {x : Except SemanticError α} {x' : Except SemanticError β} {span span' : Span}
    (hx : x' = x.map h) (he : ∀ e, x = .error e → e.relabel r = e) (hspan : span' = r.span span) :
    Commutes r h (orFail span x) (orFail span' x') := by
  subst hx
  cases x with
  | ok a => exact .pure a
  | error e => exact .fail (he e rfl).symm hspan

theorem shapeOf (n : Node) : Commutes r id (shapeOf n) (shapeOf (n.relabel r)) := by
  have hshape : (n.relabel r).facts.shape = n.facts.shape := by
    rw [n.facts_relabel]
    rfl
  unfold Annotate.shapeOf
  rw [hshape]
  split
  · exact .pure _
  · exact .fail rfl (n.span_relabel r)

theorem expectInt (n : Node) : Commutes r id (expectInt n) (expectInt (n.relabel r)) := by
  refine .bind (.shapeOf n) fun found => ?_
  dsimp only [id]
  split
  · exact .fail rfl (n.span_relabel r)
  · exact .pure _

theorem variableIndex (name : Name) (span : Span) (mayDeclare : Bool) :
    Commutes r id (variableIndex name span mayDeclare)
      (variableIndex (r.name name) (r.span span) mayDeclare) := by
  refine .bind .table fun t => ?_
  have hlookup : (t.relabel r.names).lookup (r.name name) = t.lookup name :=
    t.lookup_relabel r.names name
  rw [hlookup]
  split
  · refine .bind (.symbol _) fun s => ?_
    have hkind : (s.relabel r.names).kind = s.kind := rfl
    rw [hkind]
    split
    · exact .pure _
    · exact .fail rfl rfl
  · split
    · exact .declare (.declaredVariable name) fun t => t.push_relabel r.names { name }
    · exact .fail rfl rfl

theorem checkKeySize (name : Name) (keySize : Nat) (span : Span) (i : Nat) :
    Commutes r id (checkKeySize name keySize span i)
      (checkKeySize (r.name name) keySize (r.span span) i) := by
  refine .bind (.symbol i) fun s => ?_
  have hslot : (s.relabel r.names).map.getD {} =
      { s.map.getD {} with id := (s.map.getD {}).id.map r.names.map } := by
    unfold Symbol.relabel
    cases s.map <;> rfl
  rw [hslot]
  dsimp only
  split
  · exact .modifySymbol i fun _ => rfl
  · split
    · exact .fail rfl rfl
    · exact .pure _

theorem mapIndex (name : Name) (keySize : Nat) (span : Span) (mayDeclare : Bool) :
    Commutes r id (mapIndex name keySize span mayDeclare)
      (mapIndex (r.name name) keySize (r.span span) mayDeclare) := by
  have hrest : ∀ i, Commutes r id (do Annotate.checkKeySize name keySize span i; return i)
      (do Annotate.checkKeySize (r.name name) keySize (r.span span) i; return i) := fun i =>
    .bind (.checkKeySize name keySize span i) fun _ => .pure _
  refine .bind .table fun t => ?_
  have hlookup : (t.relabel r.names).lookup (r.name name) = t.lookup name :=
    t.lookup_relabel r.names name
  rw [hlookup]
  split
  · refine .bind (.symbol _) fun s => ?_
    have hkind : (s.relabel r.names).kind = s.kind := rfl
    rw [hkind]
    split
    · exact .bind (.pure _) hrest
    · exact .bind (.fail rfl rfl) hrest
  · split
    · exact .bind (.declare (.declaredMap name keySize)
        fun t => t.push_relabel r.names { name, kind := .map, map := some {} }) hrest
    · exact .bind (.fail rfl rfl) hrest

theorem declaredShape (i : Nat) (name : Name) (span : Span) :
    Commutes r id (declaredShape i name span) (declaredShape i (r.name name) (r.span span)) := by
  refine .bind (.symbol i) fun s => ?_
  rw [s.facts_relabel]
  split
  · exact .pure _
  · exact .fail rfl rfl

theorem builtin (name : Name) (count : Nat) (span : Span) :
    Commutes r id (builtin name count span) (builtin (r.name name) count (r.span span)) := by
  unfold Annotate.builtin
  rw [r.ofName?_name]
  split
  · exact .fail rfl rfl
  · split
    · exact .pure _
    · exact .fail rfl rfl

theorem argIndex (n : Node) : Commutes r (Node.relabel r) (argIndex n) (argIndex (n.relabel r)) := by
  cases n with
  | int tag value =>
    unfold Annotate.argIndex
    dsimp only [Node.relabel]
    split
    · exact .pure _
    · exact .fail rfl rfl
  | _ => exact .fail rfl rfl

theorem mapM {f : α → Annotate γ} {f' : β → Annotate δ} (hf : ∀ a, Commutes r h' (f a) (f' (h a)))
    (as : List α) : Commutes r (List.map h') (as.mapM f) ((as.map h).mapM f') := by
  induction as with
  | nil => exact .pure _
  | cons a as ih =>
    rw [List.map_cons, List.mapM_cons, List.mapM_cons]
    exact .bind (hf a) fun _ => .bind ih fun _ => .pure _

theorem bindValue (i : Nat) (value : Node) :
    Commutes r (Node.relabel r) (bindValue i value) (bindValue i (value.relabel r)) := by
  refine .bind (.symbol i) fun s => ?_
  have hunify : (s.relabel r.names).facts.unify (value.relabel r).facts =
      (s.facts.unify value.facts).map fun x => (x.1, { x.2 with map := x.2.map.map r.map }) := by
    rw [value.facts_relabel]
    exact Facts.unify_relabel r s.facts value.facts
  refine .bind (.orFail hunify (fun _ => Facts.unify_error r) (value.span_relabel r)) fun x =>
    .bind (.modifySymbol i fun _ => rfl) fun _ => .done ?_
  rw [Node.relabel_withTag, Node.tag_relabel]
  rfl

theorem refine (i : Nat) (map : Name) (shape : Shape) :
    Commutes r id (Annotate.refine i map shape) (Annotate.refine i (r.name map) shape) := by
  have hrest : Commutes r id
      (Annotate.modifySymbol i fun s =>
        { s with
          facts := { s.facts.withShape shape with storage := .stack }
          map := s.map.map fun slot => { slot with provisional := false } })
      (Annotate.modifySymbol i fun s =>
        { s with
          facts := { s.facts.withShape shape with storage := .stack }
          map := s.map.map fun slot => { slot with provisional := false } }) :=
    .modifySymbol i fun s => by
      unfold Symbol.relabel
      cases s.map <;> rfl
  refine .bind (.symbol i) fun s => ?_
  rw [s.facts_relabel]
  split
  · exact .bind (.note (.refinedValue map shape)) fun _ => hrest
  · exact .bind (.pure ()) fun _ => hrest

theorem assumeInt (i : Nat) : Commutes r id (assumeInt i) (assumeInt i) := by
  refine .bind (.symbol i) fun s => ?_
  rw [s.facts_relabel]
  split
  · refine .bind (.modifySymbol i fun s => ?_) fun _ => .note (.provisionalValue s.name)
    unfold Symbol.relabel
    cases s.map <;> rfl
  · exact .pure ()

theorem expectIntSymbol (i : Nat) (span : Span) :
    Commutes r id (expectIntSymbol i span) (expectIntSymbol i (r.span span)) := by
  refine .bind (.symbol i) fun s => ?_
  rw [s.facts_relabel]
  dsimp only
  split
  · exact .fail rfl rfl
  · exact .pure _

end Commutes

theorem packedSize_relabel (ns : List Node) :
    packedSize (ns.map (Node.relabel r)) = packedSize ns := by
  rw [packedSize, packedSize, List.map_map]
  congr 1
  exact List.map_congr_left fun n _ => n.packedSize_relabel r

/-- A condition on shapes names nothing in its errors. -/
abbrev Nameless (check : Shape → Except SemanticError Unit) : Prop :=
  ∀ (r : Relabeling) shape e, check shape = .error e → e.relabel r = e

theorem nameless_notRecord : Nameless notRecord := by
  intro r shape e h
  unfold notRecord at h
  split at h <;> cases h
  rfl

theorem nameless_isString : Nameless isString := by
  intro r shape e h
  unfold isString at h
  split at h <;> cases h
  rfl

mutual

theorem commutes_expression : ∀ n : Node,
    Commutes r (Node.relabel r) (expression n) (expression (n.relabel r))
  | .int tag value => by
    rw [Node.relabel, expression, expression]
    exact .pure _
  | .text tag value => by
    rw [Node.relabel, expression, expression]
    exact .pure _
  | .var tag name => by
    rw [Node.relabel, expression, expression]
    exact .bind (.variableIndex ..) fun _ => .bind (.declaredShape ..) fun _ => .pure _
  | .mapAccess tag map keys => by
    rw [Node.relabel_mapAccess, expression, expression]
    refine .bind (commutes_expressions nameless_notRecord keys) fun keys' => ?_
    rw [packedSize_relabel]
    exact .bind (.mapIndex ..) fun _ => .bind (.declaredShape ..) fun _ =>
      .done (by rw [Node.relabel_mapAccess]; rfl)
  | .binary tag op lhs rhs => by
    rw [Node.relabel, expression, expression]
    exact .bind (commutes_expression lhs) fun _ => .bind (commutes_expression rhs) fun _ =>
      .bind (.expectInt _) fun _ => .bind (.expectInt _) fun _ => .pure _
  | .call tag function args => by
    rw [Node.relabel_call, expression, expression, List.length_map]
    refine .bind (.builtin ..) fun b => ?_
    -- Functions differ in how they type their arguments; what follows is the same for all of them.
    have hrest : ∀ args : List Node, Commutes r (Node.relabel r) (match b.result with
          | some (shape, storage) => pure (.call (retag tag (.ofShape shape storage)) function args)
          | none => fail (.noValue b) tag.span : Annotate Node) (match b.result with
          | some (shape, storage) => pure (.call (retag (tag.relabel r) (.ofShape shape storage))
              (r.name function) (args.map (Node.relabel r)))
          | none => fail (.noValue b) (tag.relabel r).span : Annotate Node) := by
      intro args
      split
      · exact .done (by rw [Node.relabel_call]; rfl)
      · exact .fail rfl rfl
    cases b with
    | arg => exact .bind (.mapM .argIndex args) hrest
    | strcmp => exact .bind (commutes_expressions nameless_isString args) hrest
    | _ => exact .bind (.pure args) hrest
  | .record tag members => by
    rw [Node.relabel_record, expression, expression]
    have hcheck : Nameless fun _ => .ok () := fun _ _ _ h => nomatch h
    refine .bind (commutes_expressions hcheck members) fun members' => ?_
    rw [packedSize_relabel]
    exact .done (by rw [Node.relabel_record]; rfl)
  | .declaration .. | .assignment .. | .cond .. | .unroll .. => by
    unfold expression
    exact .fail rfl rfl

theorem commutes_expressions {check : Shape → Except SemanticError Unit} (hcheck : Nameless check) :
    ∀ ns : List Node, Commutes r (List.map (Node.relabel r)) (expressions check ns)
      (expressions check (ns.map (Node.relabel r)))
  | [] => by
    rw [List.map_nil, expressions]
    exact .pure _
  | n :: ns => by
    rw [List.map_cons, expressions, expressions]
    refine .bind (commutes_expression n) fun n => .bind (.shapeOf n) fun shape => ?_
    refine .bind (.orFail (h := id) ?_ (hcheck r shape) (n.span_relabel r)) fun _ =>
      .bind (commutes_expressions hcheck ns) fun _ => .pure _
    dsimp only [id]
    cases check shape <;> rfl

end

theorem commutes_checkConversions (cs : List Conversion) (ns : List Node) :
    Commutes r id (checkConversions cs ns) (checkConversions cs (ns.map (Node.relabel r))) := by
  induction cs generalizing ns with
  | nil => exact .pure _
  | cons c cs ih =>
    cases ns with
    | nil => exact .pure _
    | cons n ns =>
      rw [List.map_cons, checkConversions, checkConversions]
      refine .bind (.shapeOf n) fun found => ?_
      dsimp only [id]
      split
      · exact ih ns
      · exact .fail rfl (n.span_relabel r)

theorem pack_relabel (span : Span) (ns : List Node) :
    pack (r.span span) (ns.map (Node.relabel r)) = (pack span ns).relabel r := by
  match ns with
  | [] => rfl
  | [n] => cases n <;> rfl
  | n :: m :: ns =>
    have hpack : ∀ (span : Span) (n m : Node) (ns : List Node), pack span (n :: m :: ns) =
        .record { span := n.span.join ((m :: ns).getLast (List.cons_ne_nil m ns)).span }
          (n :: m :: ns) := by
      intro span n m ns
      cases n <;> rfl
    have hlast : ((m :: ns).map (Node.relabel r)).getLast (List.cons_ne_nil _ _) =
        ((m :: ns).getLast (List.cons_ne_nil m ns)).relabel r := List.getLast_map ..
    rw [List.map_cons, List.map_cons, hpack, hpack, Node.relabel_record]
    refine congrArg (fun span => Node.record { span } _) ?_
    rw [r.join, ← Node.span_relabel, ← Node.span_relabel, ← hlast]
    rfl

theorem members_relabel (n : Node) : members (n.relabel r) = (members n).map (Node.relabel r) := by
  cases n with
  | record tag ms =>
    rw [Node.relabel_record]
    rfl
  | _ => rfl

theorem commutes_declaration (tag : Tag) (target value : Node) :
    Commutes r (Node.relabel r) (declaration tag target value)
      (declaration (tag.relabel r) (target.relabel r) (value.relabel r)) := by
  refine .bind (commutes_expression value) fun value => .bind (.shapeOf value) fun shape => ?_
  cases target with
  | var t name =>
    exact .bind (.variableIndex ..) fun _ => .bind (.bindValue _ _) fun _ => .pure _
  | mapAccess t map keys =>
    rw [Node.relabel_mapAccess]
    refine .bind (commutes_expressions nameless_notRecord keys) fun keys => ?_
    rw [packedSize_relabel]
    refine .bind (.mapIndex ..) fun i => .bind (.symbol i) fun s => ?_
    have hprovisional : (s.relabel r.names).map.any MapSlot.provisional =
        s.map.any MapSlot.provisional := by
      unfold Symbol.relabel
      cases s.map <;> rfl
    have hdone : ∀ value : Node, Commutes r (Node.relabel r)
        (pure (.declaration tag (.mapAccess { t with facts := .ofShape shape .stack } map keys) value))
        (pure (.declaration (tag.relabel r) (.mapAccess { (t.relabel r) with
          facts := .ofShape shape .stack } (r.name map) (keys.map (Node.relabel r)))
            (value.relabel r)) : Annotate Node) := fun value => .done (by
      rw [Node.relabel, Node.relabel_mapAccess]
      rfl)
    rw [hprovisional]
    dsimp only [id]
    split
    · exact .bind (.refine ..) fun _ => .bind (.pure value) hdone
    · exact .bind (.bindValue _ _) hdone
  | _ => exact .fail rfl rfl

theorem commutes_assignment (tag : Tag) (op : ArithOp) (target value : Node) :
    Commutes r (Node.relabel r) (assignment tag op target value)
      (assignment (tag.relabel r) op (target.relabel r) (value.relabel r)) := by
  refine .bind (commutes_expression value) fun value => .bind (.expectInt value) fun _ => ?_
  cases target with
  | var t name =>
    exact .bind (.variableIndex ..) fun _ => .bind (.assumeInt _) fun _ =>
      .bind (.expectIntSymbol ..) fun _ => .pure _
  | mapAccess t map keys =>
    rw [Node.relabel_mapAccess]
    refine .bind (commutes_expressions nameless_notRecord keys) fun keys => ?_
    rw [packedSize_relabel]
    refine .bind (.mapIndex ..) fun _ => .bind (.assumeInt _) fun _ =>
      .bind (.expectIntSymbol ..) fun _ => .done ?_
    rw [Node.relabel, Node.relabel_mapAccess]
    rfl
  | _ => exact .fail rfl rfl

theorem commutes_output (span : Span) (args : List Node) :
    Commutes r (List.map (Node.relabel r)) (output span args)
      (output (r.span span) (args.map (Node.relabel r))) := by
  match args with
  | [] => exact .fail rfl rfl
  | .text tag format :: values =>
    unfold output
    rw [List.map_cons]
    dsimp only [Node.relabel]
    split
    · exact .fail rfl rfl
    · rw [pack_relabel]
      refine .bind (commutes_expression _) fun record => ?_
      rw [members_relabel, List.length_map]
      have hrest : ∀ cs : List Conversion, Commutes r (List.map (Node.relabel r))
          (do
            checkConversions cs (members record)
            modifyTable Table.requestEvents
            return [.text tag format, record])
          (do
            checkConversions cs ((members record).map (Node.relabel r))
            modifyTable Table.requestEvents
            return [.text (tag.relabel r) format, record.relabel r]) := fun cs =>
        .bind (commutes_checkConversions _ _) fun _ =>
          .bind (.modifyTable fun t => t.requestEvents_relabel r.names) fun _ => .pure _
      split
      · exact .bind (h := id) (.fail rfl (record.span_relabel r)) fun _ => hrest _
      · exact hrest _
  | .int .. :: _ | .var .. :: _ | .mapAccess .. :: _ | .call .. :: _ | .binary .. :: _
  | .record .. :: _ | .declaration .. :: _ | .assignment .. :: _ | .cond .. :: _
  | .unroll .. :: _ => exact .fail rfl rfl

theorem commutes_callStatement (tag : Tag) (function : Name) (args : List Node) :
    Commutes r (Node.relabel r) (callStatement tag function args)
      (callStatement (tag.relabel r) (r.name function) (args.map (Node.relabel r))) := by
  unfold callStatement
  rw [List.length_map]
  refine .bind (.builtin ..) fun b => ?_
  dsimp only [id]
  split
  · exact .bind (commutes_output _ args) fun args =>
      .done (Node.relabel_call r { tag with facts := {} } function args).symm
  · have h : Commutes r (Node.relabel r) _ _ :=
      commutes_expression (.call { tag with facts := {} } function args)
    rw [Node.relabel_call] at h
    exact h

mutual

theorem commutes_statement : ∀ n : Node,
    Commutes r (Node.relabel r) (statement n) (statement (n.relabel r))
  | .declaration tag target value => by
    rw [Node.relabel, statement, statement]
    exact commutes_declaration tag target value
  | .assignment tag op target value => by
    rw [Node.relabel, statement, statement]
    exact commutes_assignment tag op target value
  | .cond tag condition yes no => by
    rw [Node.relabel_cond, statement, statement]
    exact .bind (commutes_expression condition) fun _ => .bind (.expectInt _) fun _ =>
      .bind (commutes_statements yes) fun _ => .bind (commutes_statements no) fun _ =>
      .done (Node.relabel_cond ..).symm
  | .unroll tag count body => by
    rw [Node.relabel_unroll, statement, statement]
    exact .bind (commutes_statements body) fun _ => .done (Node.relabel_unroll ..).symm
  | .call tag function args => by
    rw [Node.relabel_call, statement, statement]
    exact commutes_callStatement tag function args
  | .var .. => by
    unfold statement
    exact commutes_expression _
  | .mapAccess .. => by
    unfold statement
    exact commutes_expression _
  | .int .. => by
    unfold statement
    exact commutes_expression _
  | .text .. => by
    unfold statement
    exact commutes_expression _
  | .binary .. => by
    unfold statement
    exact commutes_expression _
  | .record .. => by
    unfold statement
    exact commutes_expression _

theorem commutes_statements : ∀ ns : List Node,
    Commutes r (List.map (Node.relabel r)) (statements ns) (statements (ns.map (Node.relabel r)))
  | [] => by
    rw [List.map_nil, statements]
    exact .pure _
  | n :: ns => by
    rw [List.map_cons, statements, statements]
    exact .bind (commutes_statement n) fun _ => .bind (commutes_statements ns) fun _ => .pure _

end

end Annotate

theorem Probe.commutes_annotate (p : Probe) :
    Annotate.Commutes r (Probe.relabel r) p.annotate (p.relabel r).annotate := by
  refine .bind (Annotate.commutes_statements p.body) fun body => .bind .table fun t => ?_
  rw [t.needsEvents_relabel, Table.relabel, Array.size_map]
  exact .bind (.note (.annotationComplete _ _)) fun _ => .pure _

end TraceScript
