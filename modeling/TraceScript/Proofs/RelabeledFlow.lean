import TraceScript.Flow.Build
import TraceScript.Proofs.RelabeledLayout

namespace TraceScript

/-- One error in building a program tells a name. -/
def CodeError.relabel (r : Relabeling) : CodeError → CodeError
  | unboundMap name => unboundMap (r.name name)
  | e => e

theorem Table.find?_relabel (r : Relabeling) (t : Table) (name : Name) :
    (t.relabel r).find? (r.name name) = (t.find? name).map (Symbol.relabel r) := by
  have hsame : (fun s : Symbol => s.name.same (r.name name)) ∘ Symbol.relabel r =
      fun s => s.name.same name := funext fun s => r.same_name s.name name
  rw [find?, relabel, Array.find?_map, hsame, find?]

namespace Flow

variable (f : MapId → MapId)

def Helper.rename : Helper → Helper
  | .out addr size channel => .out addr size (f channel)
  | h => h

def Instruction.rename : Instruction → Instruction
  | .update map key value => .update (f map) key value
  | .lookup map key value size => .lookup (f map) key value size
  | .call helper dst => .call (helper.rename f) dst
  | i => i

def Block.rename (b : Block) : Block := { b with code := b.code.map (Instruction.rename f) }

def Program.rename (p : Program) : Program := { p with blocks := p.blocks.map (Block.rename f) }

def Builder.rename (s : Builder) : Builder := { s with program := s.program.rename f }

def MapRef.rename (m : MapRef) : MapRef := { m with id := f m.id }

def Built.rename (b : Built) : Built := { b with program := b.program.rename f }

theorem Instruction.rename_id (i : Instruction) : i.rename id = i := by
  cases i with
  | call helper dst => cases helper <;> rfl
  | _ => rfl

theorem Program.rename_id (p : Program) : p.rename id = p := by
  have hblock : Block.rename id = id := by
    funext b
    rw [Block.rename, funext Instruction.rename_id, Array.map_id']
    rfl
  rw [rename, hblock, Array.map_id]

theorem Built.rename_id (b : Built) : b.rename id = b := by
  rw [rename, Program.rename_id]

theorem map_modify_blocks (g g' : Block → Block) (blocks : Array Block) (b : BlockId)
    (hg : ∀ x, g' (x.rename f) = (g x).rename f) :
    (blocks.map (Block.rename f)).modify b g' = (blocks.modify b g).map (Block.rename f) := by
  refine Array.ext_getElem? fun j => ?_
  rw [Array.getElem?_modify, Array.getElem?_map, Array.getElem?_map, Array.getElem?_modify]
  split
  · cases blocks[j]? with
    | none => rfl
    | some x => exact congrArg some (hg x)
  · rfl

variable (r : Relabeling)

namespace Build

/-- From the same code up to descriptors the second step does what the first does, relabeled. -/
structure Commutes {α β : Type} (h : α → β) (m : Build α) (m' : Build β) : Prop where
  run : ∀ s : Builder, m' (s.rename r.map) =
    ((m s).map fun x => (h x.1, x.2.rename r.map)).mapError (CodeError.relabel r)

namespace Commutes

variable {r} {α β γ δ : Type} {h : α → β} {h' : γ → δ}

protected theorem pure (a : α) : Commutes r h (pure a) (pure (h a)) := ⟨fun _ => rfl⟩

theorem done {a : α} {b : β} (hb : b = h a) : Commutes r h (pure a) (pure b) := hb ▸ .pure a

protected theorem bind {m : Build α} {m' : Build β} {f : α → Build γ} {f' : β → Build δ}
    (hm : Commutes r h m m') (hf : ∀ a, Commutes r h' (f a) (f' (h a))) :
    Commutes r h' (m >>= f) (m' >>= f') := by
  refine ⟨fun s => ?_⟩
  change (m' (s.rename r.map) >>= fun x => f' x.1 x.2) =
    ((m s >>= fun x => f x.1 x.2).map _).mapError _
  rw [hm.run]
  cases m s with
  | ok x => exact (hf x.1).run x.2
  | error e => rfl

theorem modifyGet {g : Builder → α × Builder} {g' : Builder → β × Builder}
    (hg : ∀ s, g' (s.rename r.map) = (h (g s).1, (g s).2.rename r.map)) :
    Commutes r h (modifyGet g) (modifyGet g') := ⟨fun s => congrArg Except.ok (hg s)⟩

theorem modify {g g' : Builder → Builder} (hg : ∀ s, g' (s.rename r.map) = (g s).rename r.map) :
    Commutes r id (modify g) (modify g') := .modifyGet fun s => congrArg (Prod.mk ()) (hg s)

theorem throw {e e' : CodeError} (he : e' = e.relabel r) :
    Commutes r h (MonadExcept.throw e) (MonadExcept.throw e') := ⟨fun _ => congrArg Except.error he⟩

theorem fault (x : Fault) : Commutes r h (Build.fault x) (Build.fault x) := .throw rfl

end Commutes

end Build

section

variable {r}

theorem commutes_push (i : Instruction) :
    Build.Commutes r id (Build.push i) (Build.push (i.rename r.map)) := by
  refine .modify fun s => ?_
  have hblocks := map_modify_blocks r.map (fun b => { b with code := b.code.push i })
    (fun b => { b with code := b.code.push (i.rename r.map) }) s.program.blocks s.current fun b => by
      rw [Block.rename, Block.rename, Array.map_push]
  exact congrArg (fun blocks => { s with program := { s.program with blocks } }) hblocks

theorem commutes_newBlock : Build.Commutes r id Build.newBlock Build.newBlock := by
  refine .modifyGet fun s => ?_
  have hsize : (s.rename r.map).program.blocks.size = s.program.blocks.size := Array.size_map
  have hblocks : (s.rename r.map).program.blocks.push {} =
      (s.program.blocks.push {}).map (Block.rename r.map) := by
    have hempty : Block.rename r.map {} = {} := by simp [Block.rename]
    rw [Array.map_push, hempty]
    rfl
  rw [hsize, hblocks]
  rfl

theorem commutes_newTemp (origin : Option Origin) :
    Build.Commutes r id (Build.newTemp origin) (Build.newTemp origin) :=
  .modifyGet fun _ => rfl

theorem commutes_enter (b : BlockId) :
    Build.Commutes r id (Build.enter b) (Build.enter b) :=
  .modify fun _ => rfl

theorem commutes_linkTo (target : BlockId) :
    Build.Commutes r id (Build.linkTo target) (Build.linkTo target) := by
  refine .modify fun s => ?_
  have hlink : (s.program.rename r.map).link s.current target =
      (s.program.link s.current target).rename r.map := by
    let out (b : Block) : Block := { b with succs := b.succs.push target }
    let into (b : Block) : Block := { b with preds := b.preds.push s.current }
    have hout := map_modify_blocks r.map out out s.program.blocks s.current fun _ => rfl
    have hinto := map_modify_blocks r.map into into (s.program.blocks.modify s.current out) target
      fun _ => rfl
    exact congrArg (fun blocks => { s.program with blocks })
      ((congrArg (Array.modify · target into) hout).trans hinto)
  exact congrArg (fun program => { s with program }) hlink

theorem commutes_jump (target : BlockId) :
    Build.Commutes r id (Build.jump target) (Build.jump target) :=
  .bind (commutes_push (.jump target)) fun _ => commutes_linkTo target

theorem commutes_load (addr : Int) (origin : Option Origin) :
    Build.Commutes r id (Build.load addr origin) (Build.load addr origin) :=
  .bind (commutes_newTemp origin) fun dst => .bind (commutes_push (.load dst addr)) fun _ => .pure dst

theorem commutes_addrOf (tag : Tag) :
    Build.Commutes r id (Build.addrOf tag) (Build.addrOf (tag.relabel r)) := by
  unfold Build.addrOf
  dsimp only [Tag.relabel]
  split
  · exact .pure _
  · exact .fault _

theorem commutes_mapRef (t : Table) (tag : Tag) (name : Name) :
    Build.Commutes r (MapRef.rename r.map) (mapRef t tag name)
      (mapRef (t.relabel r) (tag.relabel r) (r.name name)) := by
  unfold mapRef
  rw [t.find?_relabel]
  cases t.find? name with
  | none => exact .throw rfl
  | some symbol =>
    dsimp only [Option.map_some, Option.bind_eq_bind, Option.bind_some, Symbol.relabel]
    cases symbol.map with
    | none => exact .throw rfl
    | some slot =>
      dsimp only [Option.map_some, Option.bind_some, Tag.relabel]
      -- The node's own descriptor goes first, in both.
      have hid : (tag.facts.map.map r.map <|> slot.id.map r.map) =
          (tag.facts.map <|> slot.id).map r.map := by
        cases tag.facts.map <;> rfl
      rw [hid]
      cases (tag.facts.map <|> slot.id) with
      | none => exact .throw rfl
      | some id =>
        dsimp only [Option.map_some, Option.bind_some]
        cases slot.keyAddr with
        | none => exact .throw rfl
        | some key =>
          cases slot.valueAddr with
          | none => exact .throw rfl
          | some value => exact .done rfl

end

namespace Evaluation

/-- The two evaluations of a node add the same code, up to descriptors. -/
structure Relabels (e e' : Evaluation) : Prop where
  scalar : Build.Commutes r id e.scalar e'.scalar
  into : ∀ dest, Build.Commutes r id (e.into dest) (e'.into dest)
  slot : Build.Commutes r id e.slot e'.slot

/-- A node with its evaluation, and the same with other descriptors. -/
structure Pairs (x x' : Node × Evaluation) : Prop where
  node : x'.1 = x.1.relabel r
  evaluation : x.2.Relabels r x'.2

variable {r} {tag : Tag}

theorem commutes_storing {scalar scalar' : Build Temp} {build build' : Int → Build Unit}
    (hs : Build.Commutes r id scalar scalar')
    (hb : ∀ dest, Build.Commutes r id (build dest) (build' dest)) (dest : Int) :
    Build.Commutes r id (storing tag scalar build dest)
      (storing (tag.relabel r) scalar' build' dest) := by
  unfold storing
  rw [tag.isInt_relabel]
  split
  · exact .bind hs fun src => commutes_push (.store src dest)
  · exact hb dest

theorem relabels_standing {scalar scalar' : Build Temp} {slot slot' : Build Int}
    (hs : Build.Commutes r id scalar scalar')
    (hl : Build.Commutes r id slot slot') :
    (standing tag scalar slot).Relabels r (standing (tag.relabel r) scalar' slot') where
  scalar := hs
  into := commutes_storing hs fun dest => .bind hl fun source => by
    dsimp only [id]
    split
    · exact commutes_push (.copy dest source tag.facts.size)
    · exact .pure _
  slot := hl

theorem relabels_built {scalar scalar' : Build Temp} {build build' : Int → Build Unit}
    (hs : Build.Commutes r id scalar scalar')
    (hb : ∀ dest, Build.Commutes r id (build dest) (build' dest)) :
    (built tag scalar build).Relabels r (built (tag.relabel r) scalar' build') where
  scalar := hs
  into := commutes_storing hs hb
  slot := .bind (commutes_addrOf tag) fun addr => .bind (commutes_storing hs hb addr) fun _ => .pure _

theorem Relabels.operand {e e' : Evaluation} (h : e.Relabels r e') (n : Node) :
    Build.Commutes r id (e.operand n) (e'.operand (n.relabel r)) := by
  have hscalar : Build.Commutes r id (do return Operand.temp (← e.scalar) : Build Operand)
      (do return Operand.temp (← e'.scalar)) := .bind h.scalar fun t => .pure (Operand.temp t)
  cases n with
  | int tag value =>
    change Build.Commutes r _ (if _ then _ else _) (if _ then _ else _)
    split
    · exact .pure _
    · exact hscalar
  | _ => exact hscalar

theorem Relabels.stage {e e' : Evaluation} (h : e.Relabels r e') (n : Node) :
    Build.Commutes r id (Evaluation.stage n e) (Evaluation.stage (n.relabel r) e') := by
  have hint : (n.relabel r).facts.isInt = n.facts.isInt := by
    rw [Node.facts_relabel]
    rfl
  unfold Evaluation.stage
  rw [hint]
  cases n.facts.isInt with
  | true => exact .bind h.scalar fun t => .pure (Staged.temp t)
  | false =>
    cases n with
    | mapAccess tag map keys => exact .bind h.slot fun addr => .pure (Staged.slot addr)
    | _ => exact .pure _

theorem Relabels.unstage {e e' : Evaluation} (h : e.Relabels r e') (n : Node) (dest : Int)
    (st : Staged) :
    Build.Commutes r id (Evaluation.unstage n e dest st)
      (Evaluation.unstage (n.relabel r) e' dest st) := by
  cases st with
  | temp src => exact commutes_push (.store src dest)
  | slot source =>
    unfold Evaluation.unstage
    rw [Node.facts_relabel]
    exact commutes_push (.copy dest source n.facts.size)
  | deferred => exact h.into dest

section

variable {l l' : List (Node × Evaluation)}

theorem commutes_stageAll (h : List.Forall₂ (Pairs r) l l') :
    Build.Commutes r id (stageAll l) (stageAll l') := by
  induction h with
  | nil => exact .pure _
  | @cons x x' l l' hx _ ih =>
    rw [stageAll, stageAll, hx.node]
    exact .bind (hx.evaluation.stage x.1) fun _ => .bind ih fun _ => .pure _

theorem commutes_unstageAll (h : List.Forall₂ (Pairs r) l l') (addr : Int) (sts : List Staged) :
    Build.Commutes r id (unstageAll addr l sts) (unstageAll addr l' sts) := by
  induction h generalizing addr sts with
  | nil =>
    unfold unstageAll
    exact .pure _
  | @cons x x' l l' hx _ ih =>
    cases sts with
    | nil =>
      unfold unstageAll
      exact .pure _
    | cons st sts =>
      rw [unstageAll, unstageAll, hx.node, Node.facts_relabel]
      exact .bind (hx.evaluation.unstage x.1 addr st) fun _ => ih _ _

theorem commutes_packInto (h : List.Forall₂ (Pairs r) l l') (addr : Int) :
    Build.Commutes r id (packInto addr l) (packInto addr l') := by
  induction h generalizing addr with
  | nil => exact .pure _
  | @cons x x' l l' hx _ ih =>
    rw [packInto, packInto, hx.node, Node.facts_relabel]
    exact .bind (hx.evaluation.into addr) fun _ => ih _

theorem commutes_readMap (h : List.Forall₂ (Pairs r) l l') (m : MapRef) (dest : Int) :
    Build.Commutes r id (readMap m l dest) (readMap (m.rename r.map) l' dest) :=
  .bind (commutes_stageAll h) fun staged => .bind (commutes_push (.zero m.key m.keySize)) fun _ =>
    .bind (commutes_push (.zero dest m.valueSize)) fun _ =>
    .bind (commutes_unstageAll h m.key staged) fun _ =>
    commutes_push (.lookup m.id m.key dest m.valueSize)

theorem eventFields_relabel (offset : Nat) (cs : List Conversion) (ns : List Node) :
    eventFields offset cs (ns.map (Node.relabel r)) = eventFields offset cs ns := by
  induction cs generalizing offset ns with
  | nil => rfl
  | cons c cs ih =>
    cases ns with
    | nil => rfl
    | cons n ns =>
      have hsize : (n.relabel r).packedSize = n.packedSize := by
        rw [Node.packedSize, Node.packedSize, Node.facts_relabel]
      rw [List.map_cons, eventFields, eventFields, hsize, ih]

theorem commutes_output (h : List.Forall₂ (Pairs r) l l') (t : Table) :
    Build.Commutes r id (output t l) (output (t.relabel r) l') := by
  cases h with
  | nil => exact .fault _
  | @cons x x' rest rest' hx hrest =>
    cases hrest with
    | nil => exact .fault _
    | @cons y y' rest rest' hy hrest =>
      cases hrest with
      | cons _ _ => exact .fault _
      | nil =>
        obtain ⟨format, _⟩ := x
        obtain ⟨record, e⟩ := y
        obtain ⟨format', _⟩ := x'
        obtain ⟨record', e'⟩ := y'
        obtain rfl : format' = format.relabel r := hx.node
        obtain rfl : record' = record.relabel r := hy.node
        unfold output
        cases format with
        | text _ format =>
          cases record with
          | record tag members =>
            rw [Node.relabel_record]
            have hid : (t.relabel r).events.id? = t.events.id?.map r.map := by
              change (t.events.relabel r).id? = _
              cases t.events <;> rfl
            dsimp only [Node.relabel]
            rw [hid]
            cases t.events.id? with
            | none => exact .throw rfl
            | some channel =>
              refine .bind (commutes_addrOf tag) fun addr => .bind (hy.evaluation.into addr) fun _ =>
                .bind (commutes_push (.call (.out addr tag.facts.size channel) none)) fun _ => ?_
              cases conversions format with
              | error c => exact .fault _
              | ok cs =>
                have hfields := eventFields_relabel (r := r) 0 cs members
                dsimp only [Node.relabel] at hfields ⊢
                rw [hfields]
                exact .modify fun _ => rfl
          | _ => exact .fault _
        | _ => exact .fault _

theorem commutes_helper (h : List.Forall₂ (Pairs r) l l') (b : Builtin) :
    Build.Commutes r (Option.map (Helper.rename r.map)) (helper tag l b)
      (helper (tag.relabel r) l' b) := by
  cases b with
  | arg =>
    cases h with
    | nil => exact .fault _
    | @cons x x' l l' hx _ =>
      obtain ⟨n, e⟩ := x
      obtain ⟨n', e'⟩ := x'
      obtain rfl : n' = n.relabel r := hx.node
      cases n with
      | int tag value => exact .done rfl
      | _ => exact .fault _
  | comm => exact .bind (commutes_addrOf tag) fun addr => .done rfl
  | strcmp =>
    cases h with
    | nil => exact .fault _
    | @cons x x' rest rest' hx hrest =>
      cases hrest with
      | nil => exact .fault _
      | @cons y y' rest rest' hy hrest =>
        cases hrest with
        | cons _ _ => exact .fault _
        | nil =>
          refine .bind hx.evaluation.slot fun left => .bind hy.evaluation.slot fun right => .done ?_
          rw [hx.node, hy.node, Node.facts_relabel, Node.facts_relabel]
          rfl
  | _ => exact .done rfl

theorem commutes_call (h : List.Forall₂ (Pairs r) l l') (t : Table) (function : Name) (wanted : Bool) :
    Build.Commutes r id (call t tag function l wanted)
      (call (t.relabel r) (tag.relabel r) (r.name function) l' wanted) := by
  unfold call
  rw [r.ofName?_name]
  split
  · exact .fault _
  · refine .bind (commutes_helper h _) fun found => ?_
    cases found with
    | none => exact .bind (commutes_output h t) fun _ => .pure _
    | some x =>
      dsimp only [Option.map_some]
      rw [tag.isInt_relabel]
      split
      · rw [map_eq_pure_bind]
        refine .bind (h := id) (.bind (commutes_newTemp _) fun dst => .pure (some dst)) fun dst => ?_
        exact .bind (commutes_push (.call x dst)) fun _ => .pure _
      · exact .bind (.pure none) fun dst => .bind (commutes_push (.call x dst)) fun _ => .pure _

end

end Evaluation

open Evaluation

mutual

theorem relabels_evaluation (t : Table) : ∀ n : Node,
    (evaluation t n).Relabels r (evaluation (t.relabel r) (n.relabel r))
  | .int tag value =>
    relabels_standing (.bind (commutes_newTemp none) fun dst => .bind (commutes_push (.imm dst value))
      fun _ => .pure dst) (.fault _)
  | .var tag name => by
    rw [Node.relabel, evaluation, evaluation, t.lookup_relabel]
    exact relabels_standing (.bind (commutes_addrOf tag) fun _ => commutes_load _ _) (commutes_addrOf tag)
  | .mapAccess tag map keys => by
    have hkeys := pairs_evaluations t keys
    rw [Node.relabel_mapAccess, evaluation, evaluation, t.lookup_relabel]
    refine relabels_standing ?_ ?_
    · exact .bind (commutes_mapRef t tag map) fun m => .bind (commutes_readMap hkeys m m.value) fun _ =>
        commutes_load m.value _
    · exact .bind (commutes_mapRef t tag map) fun m => .bind (commutes_addrOf tag) fun dest =>
        .bind (commutes_readMap hkeys m dest) fun _ => .pure _
  | .binary tag op lhs rhs => by
    have hl := relabels_evaluation t lhs
    have hr := relabels_evaluation t rhs
    rw [Node.relabel, evaluation, evaluation]
    refine relabels_standing ?_ (.fault _)
    refine .bind hl.scalar fun l => .bind (hr.operand rhs) fun r =>
      .bind (commutes_newTemp none) fun dst => ?_
    cases op with
    | arith op => exact .bind (commutes_push (.arith op dst l r)) fun _ => .pure _
    | compare op => exact .bind (commutes_push (.compare op dst l r)) fun _ => .pure _
  | .call tag function args => by
    have hargs := pairs_evaluations t args
    rw [Node.relabel_call, evaluation, evaluation, r.ofName?_name]
    refine relabels_built ?_ fun dest => ?_
    · refine .bind (commutes_call hargs t function true) fun result => ?_
      cases result with
      | some dst => exact .pure _
      | none => exact .fault _
    · split
      · exact commutes_push (.call (.comm dest tag.facts.size) none)
      · exact .bind (commutes_addrOf tag) fun _ => .fault _
  | .text tag value =>
    relabels_built (.fault _) fun dest =>
      commutes_push (.bytes dest (padded value tag.facts.size))
  | .record tag members => by
    have hmembers := pairs_evaluations t members
    rw [Node.relabel_record, evaluation, evaluation]
    refine relabels_built (.fault _) fun dest => ?_
    rw [List.isEmpty_map]
    split
    · exact commutes_push (.zero dest tag.facts.size)
    · exact commutes_packInto hmembers dest
  | .declaration .. => relabels_standing (.fault _) (.fault _)
  | .assignment .. => relabels_standing (.fault _) (.fault _)
  | .cond .. => relabels_standing (.fault _) (.fault _)
  | .unroll .. => relabels_standing (.fault _) (.fault _)

theorem pairs_evaluations (t : Table) : ∀ ns : List Node,
    List.Forall₂ (Evaluation.Pairs r) (evaluations t ns)
      (evaluations (t.relabel r) (ns.map (Node.relabel r)))
  | [] => .nil
  | n :: ns => .cons ⟨rfl, relabels_evaluation t n⟩ (pairs_evaluations t ns)

end

variable {r}

theorem commutes_clearRegions (m : MapRef) :
    Build.Commutes r id (clearRegions m) (clearRegions (m.rename r.map)) :=
  .bind (commutes_push (.zero m.key m.keySize)) fun _ => commutes_push (.zero m.value m.valueSize)

theorem commutes_declaration (t : Table) (target value : Node) :
    Build.Commutes r id (declaration t target value)
      (declaration (t.relabel r) (target.relabel r) (value.relabel r)) := by
  have hvalue := relabels_evaluation r t value
  cases target with
  | var tag name => exact .bind (commutes_addrOf tag) fun addr => hvalue.into addr
  | mapAccess tag map keys =>
    have hkeys := pairs_evaluations r t keys
    rw [Node.relabel_mapAccess]
    exact .bind (commutes_mapRef t tag map) fun m => .bind (commutes_stageAll hkeys) fun staged =>
      .bind (hvalue.stage value) fun st => .bind (commutes_clearRegions m) fun _ =>
      .bind (commutes_unstageAll hkeys m.key staged) fun _ =>
      .bind (hvalue.unstage value m.value st) fun _ => commutes_push (.update m.id m.key m.value)
  | _ => exact .fault _

theorem commutes_assignment (t : Table) (op : ArithOp) (target value : Node) :
    Build.Commutes r id (assignment t op target value)
      (assignment (t.relabel r) op (target.relabel r) (value.relabel r)) := by
  have hvalue := relabels_evaluation r t value
  cases target with
  | var tag name =>
    refine .bind (commutes_addrOf tag) fun addr => ?_
    rw [t.lookup_relabel]
    exact .bind (commutes_load addr _) fun current => .bind (hvalue.operand value) fun rhs =>
      .bind (commutes_newTemp none) fun dst => .bind (commutes_push (.arith op dst current rhs)) fun _ =>
      commutes_push (.store dst addr)
  | mapAccess tag map keys =>
    have hkeys := pairs_evaluations r t keys
    rw [Node.relabel_mapAccess]
    exact .bind (commutes_mapRef t tag map) fun m => .bind (commutes_stageAll hkeys) fun staged =>
      .bind (hvalue.operand value) fun rhs => .bind (commutes_clearRegions m) fun _ =>
      .bind (commutes_unstageAll hkeys m.key staged) fun _ =>
      .bind (commutes_push (.lookup m.id m.key m.value m.valueSize)) fun _ =>
      .bind (commutes_load m.value none) fun current => .bind (commutes_newTemp none) fun dst =>
      .bind (commutes_push (.arith op dst current rhs)) fun _ =>
      .bind (commutes_push (.store dst m.value)) fun _ => commutes_push (.update m.id m.key m.value)
  | _ => exact .fault _

theorem commutes_branch (t : Table) (condition : Node) {yes yes' no no' : Build Unit}
    (hyes : Build.Commutes r id yes yes') (hno : Build.Commutes r id no no') :
    Build.Commutes r id (branch t condition yes no)
      (branch (t.relabel r) (condition.relabel r) yes' no') :=
  .bind (relabels_evaluation r t condition).scalar fun cond => .bind commutes_newBlock fun yesBlock =>
    .bind commutes_newBlock fun noBlock => .bind commutes_newBlock fun merge =>
    .bind (commutes_push (.branch cond yesBlock noBlock)) fun _ => .bind (commutes_linkTo yesBlock) fun _ =>
    .bind (commutes_linkTo noBlock) fun _ => .bind (commutes_enter yesBlock) fun _ => .bind hyes fun _ =>
    .bind (commutes_jump merge) fun _ => .bind (commutes_enter noBlock) fun _ => .bind hno fun _ =>
    .bind (commutes_jump merge) fun _ => commutes_enter merge

theorem commutes_times {m m' : Build Unit} (h : Build.Commutes r id m m') (n : Nat) :
    Build.Commutes r id (times m n) (times m' n) := by
  induction n with
  | zero => exact .pure _
  | succ n ih => exact .bind h fun _ => ih

mutual

theorem commutes_statement (t : Table) : ∀ n : Node,
    Build.Commutes r id (statement t n) (statement (t.relabel r) (n.relabel r))
  | .declaration tag target value => commutes_declaration t target value
  | .assignment tag op target value => commutes_assignment t op target value
  | .cond tag condition yes no => by
    rw [Node.relabel_cond, statement, statement]
    exact commutes_branch t condition (commutes_statements t yes) (commutes_statements t no)
  | .unroll tag count body => by
    rw [Node.relabel_unroll, statement, statement]
    exact commutes_times (commutes_statements t body) count
  | .call tag function args => by
    rw [Node.relabel_call, statement, statement]
    exact .bind (commutes_call (pairs_evaluations r t args) t function false) fun _ => .pure _
  | .var .. => .fault _
  | .mapAccess .. => .fault _
  | .int .. => .fault _
  | .text .. => .fault _
  | .binary .. => .fault _
  | .record .. => .fault _

theorem commutes_statements (t : Table) : ∀ ns : List Node,
    Build.Commutes r id (statements t ns)
      (statements (t.relabel r) (ns.map (Node.relabel r)))
  | [] => .pure _
  | n :: ns => by
    rw [List.map_cons, statements, statements]
    exact .bind (commutes_statement t n) fun _ => commutes_statements t ns

end

variable (r)

/-- The relabeled probe has the relabeled program, or fails with the relabeled error. -/
theorem ofProbe_relabel (t : Table) (p : Probe) : ofProbe (t.relabel r) (p.relabel r) =
    ((ofProbe t p).map (Built.rename r.map)).mapError (CodeError.relabel r) := by
  have hcommutes : Build.Commutes r id (probe t p) (probe (t.relabel r) (p.relabel r)) :=
    .bind commutes_newBlock fun first => .bind (commutes_enter first) fun _ =>
      .bind (commutes_statements t p.body) fun _ => commutes_push .ret
  have hstart : Builder.rename r.map { program := { name := p.name.value } } =
      { program := { name := p.name.value } } := by
    simp [Builder.rename, Program.rename]
  have hrun := hcommutes.run { program := { name := p.name.value } }
  rw [hstart] at hrun
  unfold ofProbe StateT.run
  change (probe (t.relabel r) (p.relabel r) { program := { name := p.name.value } } >>= _) = _
  rw [hrun]
  cases probe t p { program := { name := p.name.value } } <;> rfl

end Flow

end TraceScript
