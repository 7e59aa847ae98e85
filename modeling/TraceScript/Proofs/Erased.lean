import TraceScript.Proofs.Relabeled

namespace TraceScript

namespace Node

mutual

/-- The tree with each tag changed. -/
def mapTags (g : Tag → Tag) : Node → Node
  | .declaration t target value => .declaration (g t) (target.mapTags g) (value.mapTags g)
  | .assignment t op target value => .assignment (g t) op (target.mapTags g) (value.mapTags g)
  | .var t name => .var (g t) name
  | .mapAccess t map keys => .mapAccess (g t) map (mapTagsAll g keys)
  | .int t value => .int (g t) value
  | .text t value => .text (g t) value
  | .call t function args => .call (g t) function (mapTagsAll g args)
  | .binary t op lhs rhs => .binary (g t) op (lhs.mapTags g) (rhs.mapTags g)
  | .cond t condition yes no =>
    .cond (g t) (condition.mapTags g) (mapTagsAll g yes) (mapTagsAll g no)
  | .unroll t count body => .unroll (g t) count (mapTagsAll g body)
  | .record t members => .record (g t) (mapTagsAll g members)

def mapTagsAll (g : Tag → Tag) : List Node → List Node
  | [] => []
  | n :: ns => n.mapTags g :: mapTagsAll g ns

end

theorem mapTagsAll_eq (g : Tag → Tag) (ns : List Node) : mapTagsAll g ns = ns.map (mapTags g) := by
  induction ns with
  | nil => rfl
  | cons n ns ih => rw [mapTagsAll, ih, List.map_cons]

end Node

/-- The tag of a node without its place. -/
def Tag.erase (t : Tag) : Tag := { t with span := default }

namespace Node

def erase (n : Node) : Node := n.mapTags Tag.erase

theorem erase_mapAccess (t : Tag) (map : Name) (keys : List Node) :
    (mapAccess t map keys).erase = mapAccess t.erase map (keys.map erase) :=
  congrArg (mapAccess _ map) (mapTagsAll_eq Tag.erase keys)

theorem erase_call (t : Tag) (function : Name) (args : List Node) :
    (call t function args).erase = call t.erase function (args.map erase) :=
  congrArg (call _ function) (mapTagsAll_eq Tag.erase args)

theorem erase_cond (t : Tag) (condition : Node) (yes no : List Node) :
    (cond t condition yes no).erase =
      cond t.erase condition.erase (yes.map erase) (no.map erase) :=
  congr (congrArg (cond _ _) (mapTagsAll_eq Tag.erase yes)) (mapTagsAll_eq Tag.erase no)

theorem erase_unroll (t : Tag) (count : Nat) (body : List Node) :
    (unroll t count body).erase = unroll t.erase count (body.map erase) :=
  congrArg (unroll _ count) (mapTagsAll_eq Tag.erase body)

end Node

def Probe.erase (p : Probe) : Probe := ⟨⟨p.name.value, default⟩, p.body.map Node.erase⟩

variable (f : MapId → MapId)

def Tag.rename (t : Tag) : Tag :=
  { span := default, facts := { t.facts with map := t.facts.map.map f } }

/-- The tree without places, and with other descriptors. -/
def Node.rename (n : Node) : Node := n.mapTags (Tag.rename f)

def Probe.rename (p : Probe) : Probe := ⟨⟨p.name.value, default⟩, p.body.map (Node.rename f)⟩

theorem Tag.rename_id : Tag.rename id = Tag.erase := by
  funext t
  rw [rename, erase, Option.map_id]
  rfl

theorem Node.rename_id (n : Node) : n.rename id = n.erase := by
  rw [rename, Tag.rename_id, erase]

theorem Probe.rename_id (p : Probe) : p.rename id = p.erase := by
  rw [rename, erase, funext Node.rename_id]

namespace Node

theorem rename_mapAccess (t : Tag) (map : Name) (keys : List Node) :
    (mapAccess t map keys).rename f = mapAccess (t.rename f) map (keys.map (rename f)) :=
  congrArg (mapAccess _ map) (mapTagsAll_eq (Tag.rename f) keys)

theorem rename_call (t : Tag) (function : Name) (args : List Node) :
    (call t function args).rename f = call (t.rename f) function (args.map (rename f)) :=
  congrArg (call _ function) (mapTagsAll_eq (Tag.rename f) args)

theorem rename_cond (t : Tag) (condition : Node) (yes no : List Node) :
    (cond t condition yes no).rename f =
      cond (t.rename f) (condition.rename f) (yes.map (rename f)) (no.map (rename f)) :=
  congr (congrArg (cond _ _) (mapTagsAll_eq (Tag.rename f) yes)) (mapTagsAll_eq (Tag.rename f) no)

theorem rename_unroll (t : Tag) (count : Nat) (body : List Node) :
    (unroll t count body).rename f = unroll (t.rename f) count (body.map (rename f)) :=
  congrArg (unroll _ count) (mapTagsAll_eq (Tag.rename f) body)

end Node

/-- Other descriptors, the same names, and no places. -/
def Relabeling.descriptors : Relabeling where
  name := id
  span _ := default
  map := f
  folded _ := rfl
  join _ _ := rfl

namespace Node

mutual

theorem relabel_descriptors : ∀ n : Node, n.relabel (.descriptors f) = n.rename f
  | .declaration _ target value => by
    rw [relabel, relabel_descriptors target, relabel_descriptors value]
    rfl
  | .assignment _ _ target value => by
    rw [relabel, relabel_descriptors target, relabel_descriptors value]
    rfl
  | .binary _ _ lhs rhs => by
    rw [relabel, relabel_descriptors lhs, relabel_descriptors rhs]
    rfl
  | .mapAccess _ _ keys => by
    rw [relabel, relabelAll_descriptors keys]
    rfl
  | .call _ _ args => by
    rw [relabel, relabelAll_descriptors args]
    rfl
  | .cond _ condition yes no => by
    rw [relabel, relabel_descriptors condition, relabelAll_descriptors yes, relabelAll_descriptors no]
    rfl
  | .unroll _ _ body => by
    rw [relabel, relabelAll_descriptors body]
    rfl
  | .record _ members => by
    rw [relabel, relabelAll_descriptors members]
    rfl
  | .var .. | .int .. | .text .. => rfl

theorem relabelAll_descriptors : ∀ ns : List Node,
    relabelAll (.descriptors f) ns = mapTagsAll (Tag.rename f) ns
  | [] => rfl
  | n :: ns => by
    rw [relabelAll, relabel_descriptors n, relabelAll_descriptors ns]
    rfl

end

end Node

theorem Probe.relabel_descriptors (p : Probe) : p.relabel (.descriptors f) = p.rename f := by
  rw [Probe.relabel, funext (Node.relabel_descriptors f)]
  rfl

theorem Typing.relabel_descriptors (s : Typing) : s.relabel (.descriptors f) = s := by
  have hsymbol : Symbol.relabel (Relabeling.descriptors f).names = id := by
    funext s
    unfold Symbol.relabel
    cases s with
    | mk name kind facts addr map =>
      cases map with
      | none => rfl
      | some slot => cases slot; simp only [Relabeling.names, Option.map_some, Option.map_id_fun]; rfl
  have hnote : Note.relabel (.descriptors f) = id := by
    funext n
    cases n <;> rfl
  have hevents : ∀ c : Channel, c.relabel (Relabeling.descriptors f).names = c := by
    intro c
    cases c <;> rfl
  rw [Typing.relabel, Table.relabel, hsymbol, hnote, hevents, Array.map_id, Array.map_id]

theorem Probe.annotate_rename (f : MapId → MapId) {p p' : Probe} {typing : Typing}
    (h : p.annotate.run {} = .ok p' typing) :
    (p.rename f).annotate.run {} = .ok (p'.rename f) typing := by
  have hrun := (p.commutes_annotate (r := .descriptors f)).run {}
  have hannotate : p.annotate {} = .ok p' typing := h
  rw [hannotate, p.relabel_descriptors, Typing.relabel_descriptors] at hrun
  rwa [Annotate.relabelResult, p'.relabel_descriptors, Typing.relabel_descriptors] at hrun

theorem Probe.annotate_erase {p p' : Probe} {typing : Typing} (h : p.annotate.run {} = .ok p' typing) :
    p.erase.annotate.run {} = .ok p'.erase typing := by
  have hid := Probe.annotate_rename id h
  rwa [p.rename_id, p'.rename_id] at hid

end TraceScript
